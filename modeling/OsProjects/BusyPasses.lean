import OsProjects.PriorityScheduler

/-!
Whether a pass of the patched scheduler can find nobody to run. A process whose
tickets are neither 0 nor 1 would never match `trun`. The table changes here as
it does on several CPUs: each operation is one locked region or one store of
`proc.c` and `sysfile.c`, by any process at any time. A pass holds the lock, but
`sys_settickets` and `fork` store tickets without it; they do so for a process
that is not `RUNNABLE`.
-/

namespace OsProjects.BusyPasses

open Runs ThreadTable PriorityScheduler

abbrev Table := Slot → Task

def Table.set (table : Table) (slot : Slot) (task : Task) : Table :=
  Function.update table slot task

inductive Op where
  /-- the locked part of `allocproc` -/
  | allocproc
  /-- the line of `fork` that copies the tickets -/
  | fork (cur np : Slot)
  | settickets (cur : Slot) (arg : Option UInt32)
  | exit (cur : Slot)
  | wait (slot : Slot)
  /-- any other change of a state: `sleep`, `wakeup`, `yield`, `kill`, the
  scheduler, and what ends `fork` and `userinit` -/
  | change (slot : Slot) (state : ProcState)
  deriving DecidableEq

def step (table : Table) : Op → Table
  | .allocproc =>
    match (List.finRange 64).find? fun p => (table p).state = .unused with
    | none => table
    | some p => table.set p ⟨.embryo, 1⟩
  | .fork cur np => table.set np { table np with tickets := (table cur).tickets }
  | .settickets cur arg =>
    match arg with
    | none => table
    | some num =>
      if num ≠ 0 ∧ num ≠ 1 then table else table.set cur { table cur with tickets := num }
  | .exit cur => table.set cur { table cur with state := .zombie }
  | .wait slot => table.set slot { table slot with state := .unused }
  | .change slot state => table.set slot { table slot with state }

/-- Who may do what: the caller is a process, `fork` fills the slot it got from
`allocproc`, `wait` collects an exited one, and only `allocproc` takes a slot. -/
def Possible (table : Table) : Op → Prop
  | .allocproc => True
  | .fork cur np => (table cur).state = .running ∧ (table np).state = .embryo
  | .settickets cur _ => (table cur).state = .running
  | .exit cur => (table cur).state = .running
  | .wait slot => (table slot).state = .zombie
  | .change slot _ => (table slot).state ≠ .unused

instance (table : Table) : (op : Op) → Decidable (Possible table op)
  | .allocproc => isTrue trivial
  | .fork _ _ => inferInstanceAs (Decidable (_ ∧ _))
  | .settickets _ _ => inferInstanceAs (Decidable (_ = _))
  | .exit _ => inferInstanceAs (Decidable (_ = _))
  | .wait _ => inferInstanceAs (Decidable (_ = _))
  | .change _ _ => inferInstanceAs (Decidable (_ ≠ _))

def empty : Table := fun _ => ⟨.unused, 0⟩

def Ticketed (table : Table) : Prop :=
  ∀ p, (table p).state ≠ .unused → (table p).tickets = 0 ∨ (table p).tickets = 1

theorem Ticketed.set {table : Table} (ticketed : Ticketed table) (slot : Slot) {task : Task}
    (valid : task.state ≠ .unused → task.tickets = 0 ∨ task.tickets = 1) :
    Ticketed (table.set slot task) := by
  intro p used
  by_cases same : p = slot
  · subst same
    simp only [Table.set, Function.update_self] at used ⊢
    exact valid used
  · simp only [Table.set, Function.update_of_ne same] at used ⊢
    exact ticketed p used

theorem Ticketed.step {table : Table} (ticketed : Ticketed table) {op : Op}
    (possible : Possible table op) : Ticketed (step table op) := by
  cases op with
  | allocproc =>
    simp only [BusyPasses.step]
    split
    · exact ticketed
    · exact ticketed.set _ fun _ => .inr rfl
  | fork cur np =>
    have caller : (table cur).state ≠ .unused := by simp [possible.1]
    exact ticketed.set np fun _ => ticketed cur caller
  | settickets cur arg =>
    simp only [BusyPasses.step]
    split
    · exact ticketed
    · rename_i num
      split
      · exact ticketed
      · rename_i refused
        refine ticketed.set cur fun _ => ?_
        by_contra neither
        exact refused (not_or.mp neither)
  | exit cur =>
    have caller : (table cur).state ≠ .unused := by
      rw [show (table cur).state = .running from possible]
      decide
    exact ticketed.set cur fun _ => ticketed cur caller
  | wait slot => exact ticketed.set slot fun used => absurd rfl used
  | change slot state => exact ticketed.set slot fun _ => ticketed slot possible

section Passes
variable {cpu : Cpu} {trun : UInt32}

def Served (task : Slot → Task) : Prop :=
  ∀ p, (task p).state = .runnable → (task p).tickets = 0 ∨ (task p).tickets = 1

end Passes

end OsProjects.BusyPasses
