import OsProjects.Runs
import Mathlib.Logic.Function.Basic
import Mathlib.Data.List.FinRange

/-!
The process table of xv6 with `xv6-thread.patch` (`proc.c`, and `exec` of
`exec.c`), each call as one step. What `kalloc`, `setupkvm` and `copyuvm` give is
an argument of the call. The kernel record also keeps the page directories
handed out so far and the calls of `freevm` and `kfree`, in order. Open files,
the current directory, the name and all of the trap frame but `esp` are left out:
no call here looks at them.
-/

namespace OsProjects.ThreadTable

open Runs

abbrev Addr := UInt32

abbrev Slot := Fin 64

instance slot_zero : @NeZero Nat Zero.ofOfNat0 64 := ⟨Nat.succ_ne_zero 63⟩

inductive ProcState where
  | unused
  | embryo
  | sleeping
  | runnable
  | running
  | zombie
  deriving DecidableEq

structure Proc where
  sz : UInt32
  pgdir : Addr
  kstack : Addr
  state : ProcState
  pid : UInt32
  parent : Option Slot
  esp : UInt32
  chan : Option Slot
  killed : Bool
  deriving DecidableEq

structure Kernel where
  proc : Slot → Proc
  initproc : Slot
  nextpid : UInt32
  dirs : List Addr
  freevms : List Addr
  kfrees : List Addr
  /-- what `wait` and `join` have returned, other than -1 -/
  returned : List UInt32

namespace Kernel

def set (k : Kernel) (p : Slot) (proc : Proc) : Kernel :=
  { k with proc := Function.update k.proc p proc }

def freevm (k : Kernel) (pgdir : Addr) : Kernel := { k with freevms := k.freevms ++ [pgdir] }

def kfree (k : Kernel) (page : Addr) : Kernel := { k with kfrees := k.kfrees ++ [page] }
end Kernel

/-- How the making of a page directory ends (`setupkvm` and the copying or
loading after it). If it fails late, the new directory is freed again. -/
inductive Build where
  | built (pgdir : Addr)
  | failed (scratch : Option Addr)
  deriving DecidableEq

def Build.dirs : Build → List Addr
  | .built pgdir => [pgdir]
  | .failed scratch => scratch.toList

def setupkvm (k : Kernel) (build : Build) : Kernel :=
  match build with
  | .built pgdir => { k with dirs := k.dirs ++ [pgdir] }
  | .failed none => k
  | .failed (some pgdir) => { k with dirs := k.dirs ++ [pgdir] }.freevm pgdir

inductive Ret where
  | value (value : UInt32)
  | fail
  | asleep
  deriving DecidableEq

/-- The first slot that is not used, and a kernel stack for it. The pid is taken
even if there is no stack. -/
def allocproc (k : Kernel) (stack : Addr) : Option Slot × Kernel :=
  match (List.finRange 64).find? fun p => (k.proc p).state = .unused with
  | none => (none, k)
  | some p =>
    let found := { k.proc p with state := .embryo, pid := k.nextpid, kstack := stack }
    let k := { k with nextpid := k.nextpid + 1 }
    if stack = 0 then (none, k.set p { found with state := .unused })
    else (some p, k.set p found)

def fork (k : Kernel) (cur : Slot) (stack : Addr) (copy : Build) : Ret × Kernel :=
  match allocproc k stack with
  | (none, k) => (.fail, k)
  | (some np, k) =>
    let k := setupkvm k copy
    match copy with
    | .failed _ =>
      -- `np->pgdir` is the null pointer that `copyuvm` returned
      let child := k.proc np
      (.fail, (k.kfree child.kstack).set np
        { child with pgdir := 0, kstack := 0, state := .unused })
    | .built pgdir =>
      let curproc := k.proc cur
      let child := { k.proc np with
        pgdir, sz := curproc.sz, parent := some cur, esp := curproc.esp, state := .runnable }
      (.value child.pid, k.set np child)

/-- The thread gets the address space of the caller and three words on its stack.
Both subtractions are unsigned. -/
def clone (k : Kernel) (cur : Slot) (stack : UInt32) (kstack : Addr) : Ret × Kernel :=
  if stack % 4096 ≠ 0 then (.fail, k)
  else if (k.proc cur).sz - stack < 4096 then (.fail, k)
  else
    match allocproc k kstack with
    | (none, k) => (.fail, k)
    | (some np, k) =>
      let curproc := k.proc cur
      let child := { k.proc np with
        parent := some cur, sz := curproc.sz, pgdir := curproc.pgdir
        esp := stack + 4096 - 12, state := .runnable }
      (.value child.pid, k.set np child)

/-- From the commit on `exec` does not fail; before it, the new directory is
given up. -/
def exec (k : Kernel) (cur : Slot) (build : Build) (sz sp : UInt32) : Ret × Kernel :=
  let k := setupkvm k build
  match build with
  | .failed _ => (.fail, k)
  | .built pgdir =>
    let oldpgdir := (k.proc cur).pgdir
    (.value 0, (k.set cur { k.proc cur with pgdir, sz, esp := sp }).freevm oldpgdir)

def wakeup1 (k : Kernel) (chan : Option Slot) : Kernel :=
  { k with
    proc := fun p =>
      if (k.proc p).state = .sleeping ∧ (k.proc p).chan = chan then
        { k.proc p with state := .runnable }
      else k.proc p }

def reparent (k : Kernel) (cur : Slot) : Kernel :=
  { k with
    proc := fun p =>
      if (k.proc p).parent = some cur then { k.proc p with parent := some k.initproc }
      else k.proc p }

def exit (k : Kernel) (cur : Slot) : Kernel :=
  let k := wakeup1 k (k.proc cur).parent
  let abandoned := (List.finRange 64).any fun p =>
    (k.proc p).parent = some cur && (k.proc p).state = .zombie
  let k := reparent k cur
  -- the loop wakes init at every exited child; doing it once wakes the same processes
  let k := if abandoned then wakeup1 k (some k.initproc) else k
  k.set cur { k.proc cur with state := .zombie }

def sleep (k : Kernel) (cur : Slot) : Kernel :=
  k.set cur { k.proc cur with state := .sleeping, chan := some cur }

def WaitsFor (k : Kernel) (cur p : Slot) : Prop :=
  (k.proc p).parent = some cur ∧ (k.proc p).pgdir ≠ (k.proc cur).pgdir

def JoinsWith (k : Kernel) (cur p : Slot) : Prop :=
  (k.proc p).parent = some cur ∧ (k.proc p).pgdir = (k.proc cur).pgdir

instance (k : Kernel) (cur p : Slot) : Decidable (WaitsFor k cur p) :=
  inferInstanceAs (Decidable (_ ∧ _))

instance (k : Kernel) (cur p : Slot) : Decidable (JoinsWith k cur p) :=
  inferInstanceAs (Decidable (_ ∧ _))

/-- The loop in `wait` over the other slots: one `freevm` for each slot, used or
not, that has the page directory too. -/
def freeShared (k : Kernel) (p : Slot) : Kernel :=
  (List.finRange 64).foldl
    (fun k np =>
      -- a directory that nobody shares is not freed at all
      if np ≠ p ∧ (k.proc np).pgdir = (k.proc p).pgdir then k.freevm (k.proc p).pgdir else k) k

def Proc.cleared (proc : Proc) : Proc :=
  { proc with kstack := 0, pid := 0, parent := none, killed := false, state := .unused }

/-- What the scan of the table finds: an exited child, that waiting is of no use,
or neither. -/
inductive Scan where
  | child (p : Slot)
  | nobody
  | later
  deriving DecidableEq

def scan (k : Kernel) (cur : Slot) (child : Slot → Bool) : Scan :=
  match (List.finRange 64).find? fun p => child p && (k.proc p).state = .zombie with
  | some p => .child p
  | none =>
    if (List.finRange 64).any child = false ∨ (k.proc cur).killed = true then .nobody else .later

/-- `wait` up to its return or its `sleep`, after which the loop starts again. -/
def wait (k : Kernel) (cur : Slot) : Ret × Kernel :=
  match scan k cur fun p => WaitsFor k cur p with
  | .child p =>
    let shared := freeShared (k.kfree (k.proc p).kstack) p
    (.value (k.proc p).pid, shared.set p { (k.proc p).cleared with pgdir := 0 })
  | .nobody => (.fail, k)
  | .later => (.asleep, sleep k cur)

def pgrounddown (addr : UInt32) : UInt32 := addr - addr % 4096

/-- `join`, with what it stores in `*stack`. The page directory of the thread
stays in its slot. -/
def join (k : Kernel) (cur : Slot) : Ret × Option UInt32 × Kernel :=
  match scan k cur fun p => JoinsWith k cur p with
  | .child p =>
    (.value (k.proc p).pid, some (pgrounddown (k.proc p).esp),
      (k.kfree (k.proc p).kstack).set p (k.proc p).cleared)
  | .nobody => (.fail, none, k)
  | .later => (.asleep, none, sleep k cur)

inductive Call where
  | fork (cur : Slot) (stack : Addr) (copy : Build)
  | clone (cur : Slot) (stack : UInt32) (kstack : Addr)
  | exec (cur : Slot) (build : Build) (sz sp : UInt32)
  | exit (cur : Slot)
  | wait (cur : Slot)
  | join (cur : Slot)
  deriving DecidableEq

def Call.cur : Call → Slot
  | .fork cur _ _ => cur
  | .clone cur _ _ => cur
  | .exec cur _ _ _ => cur
  | .exit cur => cur
  | .wait cur => cur
  | .join cur => cur

def deliver (k : Kernel) : Ret → Kernel
  | .value pid => { k with returned := k.returned ++ [pid] }
  | _ => k

def step (k : Kernel) : Call → Kernel
  | .fork cur stack copy => (fork k cur stack copy).2
  | .clone cur stack kstack => (clone k cur stack kstack).2
  | .exec cur build sz sp => (exec k cur build sz sp).2
  | .exit cur => exit k cur
  | .wait cur => deliver (wait k cur).2 (wait k cur).1
  | .join cur => deliver (join k cur).2.2 (join k cur).1

def boot (pgdir kstack : Addr) : Kernel where
  proc p :=
    if p = 0 then ⟨4096, pgdir, kstack, .runnable, 1, none, 4096, none, false⟩
    else ⟨0, 0, 0, .unused, 0, none, 0, none, false⟩
  initproc := 0
  nextpid := 2
  dirs := [pgdir]
  freevms := []
  kfrees := []
  returned := []

def collected (k : Kernel) : Call → Option Slot
  | .wait cur =>
    match scan k cur fun p => WaitsFor k cur p with
    | .child p => some p
    | _ => none
  | .join cur =>
    match scan k cur fun p => JoinsWith k cur p with
    | .child p => some p
    | _ => none
  | _ => none

/-- The process that gives up its address space in a call: the one that is
collected, or the caller of an `exec` that succeeds. -/
def leaver (k : Kernel) : Call → Option Slot
  | .exec cur (.built _) _ _ => some cur
  | call => collected k call

def Call.kallocs : Call → List Addr
  | .fork _ stack _ => [stack]
  | .clone _ _ kstack => [kstack]
  | _ => []

def Call.dirs : Call → List Addr
  | .fork _ _ copy => copy.dirs
  | .exec _ build _ _ => build.dirs
  | _ => []

def InUse (k : Kernel) (p : Slot) : Prop := (k.proc p).state ≠ .unused

instance (k : Kernel) (p : Slot) : Decidable (InUse k p) := inferInstanceAs (Decidable (_ ≠ _))

/-- Init never exits: the kernel panics first. Every other call may be made by
any process that can run. -/
def CanCall (k : Kernel) (call : Call) : Prop :=
  ((k.proc call.cur).state = .runnable ∨ (k.proc call.cur).state = .running) ∧
    call ≠ .exit k.initproc

def FreshStack (k : Kernel) (call : Call) : Prop :=
  ∀ stack ∈ call.kallocs, ∀ p, InUse k p → (k.proc p).kstack ≠ stack

def FreshDir (k : Kernel) (call : Call) : Prop := ∀ pgdir ∈ call.dirs, pgdir ≠ 0 ∧ pgdir ∉ k.dirs

def PidLeft (k : Kernel) (call : Call) : Prop := call.kallocs ≠ [] → k.nextpid.toNat < 2147483648

instance (k : Kernel) (call : Call) : Decidable (CanCall k call) :=
  inferInstanceAs (Decidable (_ ∧ _))

-- the lists are walked: there are too many addresses to try them all
instance (k : Kernel) (call : Call) : Decidable (FreshStack k call) :=
  have : ∀ stack, Decidable (∀ p, InUse k p → (k.proc p).kstack ≠ stack) := fun _ =>
    Nat.decidableForallFin _
  List.decidableBAll (fun stack => ∀ p, InUse k p → (k.proc p).kstack ≠ stack) call.kallocs

instance (k : Kernel) (call : Call) : Decidable (FreshDir k call) :=
  List.decidableBAll (fun pgdir => pgdir ≠ 0 ∧ pgdir ∉ k.dirs) call.dirs

instance (k : Kernel) (call : Call) : Decidable (PidLeft k call) :=
  inferInstanceAs (Decidable (_ → _))

end OsProjects.ThreadTable
