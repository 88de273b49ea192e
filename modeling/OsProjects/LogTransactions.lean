import OsProjects.Runs
import Mathlib.Data.List.Dedup
import Mathlib.Data.List.Perm.Subperm

/-!
The transactions of the file-system log (`log.c`) under the system calls that
`xv6-scheduling.patch` adds. Every call starts a transaction; a file system call
ends it, and the last one to end commits. `sys_settickets` and `sys_getpinfo`
end theirs only where they fail early. Calls are made one after another, so a
`begin_op` that sleeps sleeps for ever.
-/

namespace OsProjects.LogTransactions

open Runs

structure Log where
  outstanding : Int
  committing : Bool
  block : List Nat
  deriving DecidableEq

def maxOpBlocks : Nat := 10

def logSize : Nat := 30

def beginOp (log : Log) : Option Log :=
  if log.committing then none
  else if (log.block.length : Int) + (log.outstanding + 1) * maxOpBlocks > logSize then none
  else some { log with outstanding := log.outstanding + 1 }

/-- `none` is a panic; the log area on the disk has `logSize` blocks too. A block
that is already in the header is absorbed. -/
def logWrite (log : Log) (blockno : Nat) : Option Log :=
  if log.block.length ≥ logSize ∨ log.block.length ≥ logSize - 1 then none
  else if log.outstanding < 1 then none
  else if blockno ∈ log.block then some log
  else some { log with block := log.block ++ [blockno] }

/-- Whether it committed, and the log; `none` is a panic. A commit empties the
header. -/
def endOp (log : Log) : Option (Bool × Log) :=
  if log.committing then none
  else if log.outstanding - 1 = 0 then some (true, ⟨0, false, []⟩)
  else some (false, { log with outstanding := log.outstanding - 1 })

inductive Call where
  /-- the argument, if `argint` can read it -/
  | settickets (num : Option Int)
  /-- the pointer, if `argptr` accepts it -/
  | getpinfo (ps : Option UInt32)
  /-- the blocks that a file system call writes -/
  | fileSystem (writes : List Nat)

structure Done where
  ret : Int
  committed : Bool
  log : Log

def closing (log : Log) (ret : Int) : Option Done :=
  (endOp log).map fun ended => ⟨ret, ended.1, ended.2⟩

/-- `sys_settickets`, apart from the tickets. -/
def sysSettickets (log : Log) (num : Option Int) : Option Done := do
  let log ← beginOp log
  match num with
  | none => closing log (-1)
  -- the way to `return 0` has no `end_op`
  | some num => if num ≠ 0 ∧ num ≠ 1 then closing log (-1) else some ⟨0, false, log⟩

def sysGetpinfo (log : Log) (ps : Option UInt32) : Option Done := do
  let log ← beginOp log
  match ps with
  | none => closing log (-1)
  -- neither return after the first check has an `end_op`
  | some ps => if ps = 0 then some ⟨-1, false, log⟩ else some ⟨0, false, log⟩

def sysFile (log : Log) (writes : List Nat) : Option Done := do
  let log ← beginOp log
  let log ← writes.foldlM logWrite log
  closing log 0

def perform (log : Log) : Call → Option Done
  | .settickets num => sysSettickets log num
  | .getpinfo ps => sysGetpinfo log ps
  | .fileSystem writes => sysFile log writes

/-- `none` once a call does not come back. -/
def step (log : Option Log) (call : Call) : Option Log :=
  log.bind fun log => (perform log call).map Done.log

def empty : Log := ⟨0, false, []⟩

/-- The call comes back, nothing is outstanding after it, the next `begin_op`
goes through, and a file system call has committed. -/
def Balanced (log : Option Log) (call : Call) : Prop :=
  ∃ before done, log = some before ∧ perform before call = some done ∧
    done.log.outstanding = 0 ∧ (beginOp done.log).isSome = true ∧
    ∀ writes, call = .fileSystem writes → done.committed = true

def Fits : Call → Prop
  | .fileSystem writes => writes.dedup.length ≤ maxOpBlocks
  | _ => True

def Closes : Call → Prop
  | .settickets num => num ≠ some 0 ∧ num ≠ some 1
  | .getpinfo ps => ps = none
  | .fileSystem _ => True

theorem beginOp_empty : beginOp empty = some ⟨1, false, []⟩ := rfl

theorem closing_first (ret : Int) (block : List Nat) :
    closing ⟨1, false, block⟩ ret = some ⟨ret, true, empty⟩ := rfl

theorem logWrites (writes block : List Nat) (distinct : block.Nodup) (all : List Nat)
    (known : ∀ blockno ∈ block, blockno ∈ all) (later : ∀ blockno ∈ writes, blockno ∈ all)
    (few : all.dedup.length ≤ maxOpBlocks) :
    ∃ block', writes.foldlM logWrite ⟨1, false, block⟩ = some ⟨1, false, block'⟩ := by
  induction writes generalizing block with
  | nil => exact ⟨block, rfl⟩
  | cons blockno rest ih =>
    have short : block.length ≤ 10 := by
      have sub : ∀ blockno ∈ block, blockno ∈ all.dedup := fun blockno here =>
        List.mem_dedup.mpr (known blockno here)
      exact Nat.le_trans (List.subperm_of_subset distinct sub).length_le few
    have room : ¬ (block.length ≥ logSize ∨ block.length ≥ logSize - 1) := by
      simp only [logSize]
      omega
    have started : ¬ (1 : Int) < 1 := by omega
    rw [List.foldlM_cons]
    by_cases absorbed : blockno ∈ block
    · have result : logWrite ⟨1, false, block⟩ blockno = some ⟨1, false, block⟩ := by
        simp only [logWrite, if_neg room, if_neg started, if_pos absorbed]
      rw [result]
      exact ih block distinct known (fun b here => later b (List.mem_cons_of_mem _ here))
    · have result : logWrite ⟨1, false, block⟩ blockno = some ⟨1, false, block ++ [blockno]⟩ := by
        simp only [logWrite, if_neg room, if_neg started, if_neg absorbed]
      rw [result]
      refine ih _ ?_ ?_ (fun b here => later b (List.mem_cons_of_mem _ here))
      · refine List.nodup_append.mpr ⟨distinct, List.nodup_singleton _, ?_⟩
        rintro b old new here rfl
        exact absorbed (List.mem_singleton.mp here ▸ old)
      · intro b here
        rcases List.mem_append.mp here with old | new
        · exact known b old
        · rw [List.mem_singleton.mp new]
          exact later blockno List.mem_cons_self

theorem sysFile_empty {writes : List Nat} (fits : Fits (.fileSystem writes)) :
    sysFile empty writes = some ⟨0, true, empty⟩ := by
  obtain ⟨block, result⟩ := logWrites writes [] List.nodup_nil writes
    (fun _ none => absurd none List.not_mem_nil) (fun _ here => here) fits
  simp only [sysFile, beginOp_empty, Option.bind_eq_bind, Option.bind_some, result]
  exact closing_first 0 block

/-- A call that closes its transaction leaves the empty log. -/
theorem perform_closes {call : Call} (fits : Fits call) (closes : Closes call) :
    ∃ ret, perform empty call = some ⟨ret, true, empty⟩ := by
  cases call with
  | settickets num =>
    refine ⟨-1, ?_⟩
    simp only [perform, sysSettickets, beginOp_empty, Option.bind_eq_bind, Option.bind_some]
    cases num with
    | none => exact closing_first (-1) []
    | some num =>
      have refused : num ≠ 0 ∧ num ≠ 1 := by simpa [Closes] using closes
      simp only [if_pos refused]
      exact closing_first (-1) []
  | getpinfo ps =>
    cases closes
    exact ⟨-1, rfl⟩
  | fileSystem writes => exact ⟨0, sysFile_empty fits⟩

theorem perform_leaks {call : Call} (open' : ¬ Closes call) :
    ∃ ret, perform empty call = some ⟨ret, false, ⟨1, false, []⟩⟩ := by
  cases call with
  | settickets num =>
    refine ⟨0, ?_⟩
    simp only [perform, sysSettickets, beginOp_empty, Option.bind_eq_bind, Option.bind_some]
    cases num with
    | none => exact absurd (by simp [Closes]) open'
    | some num =>
      have taken : ¬ (num ≠ 0 ∧ num ≠ 1) := by simpa [Closes] using open'
      simp only [if_neg taken]
  | getpinfo ps =>
    cases ps with
    | none => exact absurd rfl open'
    | some ps =>
      simp only [perform, sysGetpinfo, beginOp_empty, Option.bind_eq_bind, Option.bind_some]
      split
      · exact ⟨-1, rfl⟩
      · exact ⟨0, rfl⟩
  | fileSystem writes => exact absurd trivial open'

theorem balanced_iff_closes {call : Call} (fits : Fits call) :
    Balanced (some empty) call ↔ Closes call := by
  constructor
  · rintro ⟨before, done, same, result, zero, _⟩
    cases same
    by_contra leaks
    obtain ⟨ret, result'⟩ := perform_leaks leaks
    rw [result', Option.some.injEq] at result
    subst result
    exact absurd zero Int.one_ne_zero
  · intro closes
    obtain ⟨ret, result⟩ := perform_closes fits closes
    exact ⟨empty, _, rfl, result, rfl, rfl, fun _ _ => rfl⟩

/-- The calls of a run are all balanced exactly if none of them returns with its
transaction open. -/
theorem balanced_run_iff {calls : List Call} (fit : ∀ call ∈ calls, Fits call) :
    Allowed step Balanced (some empty) calls ↔ ∀ call ∈ calls, Closes call := by
  induction calls with
  | nil => simp [Allowed]
  | cons call rest ih =>
    have here := balanced_iff_closes (fit call List.mem_cons_self)
    have later := ih fun call member => fit call (List.mem_cons_of_mem _ member)
    have again : Closes call → step (some empty) call = some empty := by
      intro closes
      obtain ⟨ret, result⟩ := perform_closes (fit call List.mem_cons_self) closes
      simp [step, result]
    rw [List.forall_mem_cons]
    constructor
    · rintro ⟨balanced, run⟩
      have closes := here.mp balanced
      rw [again closes] at run
      exact ⟨closes, later.mp run⟩
    · rintro ⟨closes, rest'⟩
      refine ⟨here.mpr closes, ?_⟩
      rw [again closes]
      exact later.mpr rest'

/-- A refused `settickets` and a file system call. -/
theorem refused_call_is_balanced :
    Allowed step Balanced (some empty) [.settickets (some 7), .fileSystem [3, 5, 3]] := by
  refine (balanced_run_iff ?_).mpr ?_
  · simp [Fits, maxOpBlocks]
  · simp [Closes]

/-- After a successful `settickets` one transaction is outstanding and a file
system call does not commit; after three of them the next call sleeps. -/
theorem settickets_leaves_its_transaction_open :
    step (some empty) (.settickets (some 1)) = some ⟨1, false, []⟩ ∧
      ¬ Balanced (some empty) (.settickets (some 1)) ∧
      (sysFile ⟨1, false, []⟩ [3]).map Done.committed = some false ∧
      run step (some empty) [.settickets (some 1), .settickets (some 0), .settickets (some 1),
        .fileSystem [3]] = none := by
  refine ⟨by decide, ?_, by decide, by decide⟩
  have fits : Fits (.settickets (some 1)) := trivial
  rw [balanced_iff_closes fits]
  simp [Closes]

end OsProjects.LogTransactions
