import OsProjects.LogRecovery

/-!
Room in the log (`begin_op`, `log_write`). `begin_op` reserves `MAXOPBLOCKS`
blocks for each operation, `log_write` panics when the log area is full. The area
has one block less than `LOGSIZE`, so the reservation is safe for operations that
write nine blocks each, but not for ten.
-/

namespace OsProjects.LogCapacity

open Runs LogTransactions LogRecovery List

abbrev Ops := List (Nat × List Nat)

def note (pid blockno : Nat) (op : Nat × List Nat) : Nat × List Nat :=
  if op.1 = pid then (pid, op.2.insert blockno) else op

def Ops.record (m : Machine) (event : Event) (ops : Ops) : Ops :=
  match event with
  | .beginOp pid => if (beginOp m.log).isSome then (pid, []) :: ops else ops
  | .write pid blockno _ => ops.map (note pid blockno.toNat)
  | .endOp pid => ops.eraseP fun op => op.1 = pid
  | .crash => []
  | _ => ops

/-- A process has one operation at a time, writes at most nine blocks in it and
ends it. -/
def Modest (start : Nat) (state : Machine × Ops) (event : Event) : Prop :=
  Possible start state.1 event ∧
    match event with
    | .beginOp pid => pid ∉ state.2.map Prod.fst
    | .write pid blockno _ =>
      ∃ op ∈ state.2, op.1 = pid ∧ (op.2.insert blockno.toNat).length ≤ 9
    | .endOp pid => pid ∈ state.2.map Prod.fst
    | _ => True

instance (start : Nat) (state : Machine × Ops) :
    (event : Event) → Decidable (Modest start state event)
  | .beginOp _ => inferInstanceAs (Decidable (_ ∧ _ ∉ _))
  | .write _ _ _ => inferInstanceAs (Decidable (_ ∧ ∃ op ∈ _, _ ∧ _))
  | .endOp _ => inferInstanceAs (Decidable (_ ∧ _ ∈ _))
  | .read _ | .evict _ | .proceed | .crash => isTrue ⟨trivial, trivial⟩

def Ops.budget (ops : Ops) : Nat := (ops.map fun op => 9 - op.2.length).sum

structure Reserved (start : Nat) (state : Machine × Ops) : Prop where
  kept : ∃ d, Kept start state.1 d
  running : state.1.stage ≠ .halted
  count : state.1.log.outstanding = state.2.length
  pids : (state.2.map Prod.fst).Nodup
  used : ∀ op ∈ state.2, op.2 ⊆ state.1.log.block ∧ op.2.length ≤ 9
  room : state.2 ≠ [] → state.1.log.block.length + state.2.budget ≤ 28

section Budget

theorem Ops.budget_le (ops : Ops) : ops.budget ≤ 9 * ops.length := by
  induction ops with
  | nil => exact Nat.le_refl 0
  | cons op rest ih =>
    simp only [Ops.budget, map_cons, sum_cons, length_cons] at ih ⊢
    omega

theorem budget_eraseP (ops : Ops) (pid : Nat) :
    Ops.budget (ops.eraseP fun op => op.1 = pid) ≤ ops.budget := by
  induction ops with
  | nil => exact Nat.le_refl 0
  | cons op rest ih =>
    by_cases here : op.1 = pid
    · simp [here, Ops.budget]
    · simpa [eraseP_cons, here, Ops.budget] using ih

theorem length_note_le (pid blockno : Nat) (op : Nat × List Nat) :
    op.2.length ≤ (note pid blockno op).2.length := by
  unfold note
  split
  · exact length_le_length_insert
  · exact Nat.le_refl _

theorem budget_note (ops : Ops) (pid blockno : Nat) :
    Ops.budget (ops.map (note pid blockno)) ≤ ops.budget := by
  induction ops with
  | nil => exact Nat.le_refl 0
  | cons op rest ih =>
    have longer := length_note_le pid blockno op
    simp only [Ops.budget, map_cons, sum_cons] at ih ⊢
    omega

theorem budget_note_new (ops : Ops) {pid blockno : Nat} {op : Nat × List Nat} (member : op ∈ ops)
    (own : op.1 = pid) (new : blockno ∉ op.2) (few : (op.2.insert blockno).length ≤ 9) :
    Ops.budget (ops.map (note pid blockno)) + 1 ≤ ops.budget := by
  induction ops with
  | nil => exact absurd member not_mem_nil
  | cons first rest ih =>
    rcases mem_cons.mp member with rfl | later
    · have others := budget_note rest pid blockno
      rw [length_insert_of_not_mem new] at few
      simp only [Ops.budget, map_cons, sum_cons, note, if_pos own,
        length_insert_of_not_mem new] at others ⊢
      omega
    · have others := ih later
      have longer := length_note_le pid blockno first
      simp only [Ops.budget, map_cons, sum_cons] at others ⊢
      omega

theorem map_fst_note (ops : Ops) (pid blockno : Nat) :
    (ops.map (note pid blockno)).map Prod.fst = ops.map Prod.fst := by
  rw [map_map]
  refine map_congr_left fun op _ => ?_
  simp only [Function.comp, note]
  split
  · rename_i own
    exact own.symm
  · rfl

end Budget

section Steps
variable {start : Nat} {m : Machine} {ops : Ops}

theorem proceed_running (running : m.stage ≠ .halted) : (proceed start m).stage ≠ .halted := by
  unfold proceed
  split <;> first | (split <;> simp) | exact running | simp

theorem proceed_outstanding (m : Machine) :
    (proceed start m).log.outstanding = m.log.outstanding := by
  have head : (writeHead start m).log = m.log := (untouched_bread m start).log
  have copy : ∀ tail blockno, (logBlock start m tail blockno).log = m.log := fun tail blockno =>
    ((untouched_bread m (start + tail + 1)).trans (untouched_bread _ blockno)).log
  have boots : (readHead start m).log.outstanding = m.log.outstanding := by
    simp only [readHead, (untouched_bread m start).log]
  unfold proceed
  split <;> first | (split <;> simp [copy, installBlock_log]) | simp [head, boots]

section
variable (reserved : Reserved start (m, ops))
include reserved

theorem Reserved.idle (busy : ops ≠ []) : m.stage = .idle := by
  obtain ⟨d, kept⟩ := reserved.kept
  refine kept.idle reserved.running (Or.inl ?_)
  have count : m.log.outstanding = ops.length := reserved.count
  have positive := length_pos_iff.mpr busy
  change m.log.outstanding ≠ 0
  omega

theorem Reserved.enter {pid : Nat} (up : m.up = true)
    (new : pid ∉ ops.map Prod.fst) {d : Durable} (next : Kept start (enter m) d) :
    Reserved start (enter m, Ops.record m (.beginOp pid) ops) := by
  unfold Ops.record
  cases began : beginOp m.log with
  | none => simpa [LogRecovery.enter, began] using reserved
  | some log =>
    obtain ⟨off, fits, rfl⟩ := beginOp_some began
    obtain ⟨d', kept⟩ := reserved.kept
    have count : m.log.outstanding = ops.length := reserved.count
    have result : LogRecovery.enter m =
        { m with log := { m.log with outstanding := m.log.outstanding + 1 } } := by
      simp only [LogRecovery.enter, began]
    rw [result] at next ⊢
    refine {
      kept := ⟨d, next⟩, running := reserved.running, count := ?_, pids := ?_, used := ?_
      room := fun _ => ?_ }
    · simp only [Option.isSome_some, if_true, length_cons, count]
      omega
    · simpa using ⟨by simpa using new, reserved.pids⟩
    · simp only [Option.isSome_some, if_true, forall_mem_cons]
      exact ⟨⟨nil_subset _, Nat.zero_le _⟩, reserved.used⟩
    · have bound := Ops.budget_le ops
      have stage := kept.stage
      rw [kept.idle reserved.running (Or.inr ⟨up, off⟩)] at stage
      simp only [Option.isSome_some, if_true, Ops.budget, map_cons, sum_cons, length_nil] at bound ⊢
      simp only [maxOpBlocks, logSize] at fits
      -- alone the operation meets an empty log; beside others two blocks stay free
      by_cases alone : ops = []
      · have nothing := stage.2.2.2.2 (by rw [count, alone]; rfl)
        simp only at nothing
        rw [nothing, alone]
        decide
      · have positive := length_pos_iff.mpr alone
        omega

/-- An operation within its bound finds room, for a new block and for one that is
in the log already. -/
theorem Reserved.accepts (busy : ops ≠ []) (blockno : Nat) :
    ∃ log, logWrite m.log blockno = some log := by
  have room : m.log.block.length + ops.budget ≤ 28 := reserved.room busy
  have count : m.log.outstanding = ops.length := reserved.count
  have positive := length_pos_iff.mpr busy
  have short : ¬ (m.log.block.length ≥ logSize ∨ m.log.block.length ≥ logSize - 1) := by
    simp only [logSize]
    omega
  have opened : ¬ m.log.outstanding < 1 := by omega
  unfold logWrite
  rw [if_neg short, if_neg opened]
  split
  · exact ⟨_, rfl⟩
  · exact ⟨_, rfl⟩

theorem Reserved.write {pid blockno : Nat} {log : Log}
    {m' : Machine} {d : Durable} (next : Kept start m' d) (running : m'.stage ≠ .halted)
    (changed : m'.log = log) (wrote : logWrite m.log blockno = some log)
    (modest : ∃ op ∈ ops, op.1 = pid ∧ (op.2.insert blockno).length ≤ 9) :
    Reserved start (m', ops.map (note pid blockno)) := by
  obtain ⟨op, member, own, few⟩ := modest
  obtain ⟨_, _, change⟩ := logWrite_some wrote
  have room : m.log.block.length + ops.budget ≤ 28 := reserved.room (ne_nil_of_mem member)
  obtain ⟨inside, wider, _, same⟩ := logWrite_grows wrote
  refine { kept := ⟨d, next⟩, running, count := ?_, pids := ?_, used := ?_, room := fun _ => ?_ }
  · rw [length_map, changed, same]
    exact reserved.count
  · rw [map_fst_note]
    exact reserved.pids
  · rw [changed]
    intro noted here
    obtain ⟨before, old, rfl⟩ := mem_map.mp here
    have used := reserved.used before old
    unfold note
    split
    · rename_i mine
      have only : before = op := by
        have inj := inj_on_of_nodup_map reserved.pids
        exact inj old member (mine.trans own.symm)
      refine ⟨fun place there => ?_, only ▸ few⟩
      rcases mem_insert_iff.mp there with rfl | earlier
      · exact inside
      · exact wider (used.1 earlier)
    · exact ⟨fun place there => wider (used.1 there), used.2⟩
  · rw [changed]
    rcases change with ⟨_, rfl⟩ | ⟨new, rfl⟩
    · have less := budget_note ops pid blockno
      simp only
      omega
    · have absent : blockno ∉ op.2 := fun here => new ((reserved.used op member).1 here)
      have less := budget_note_new ops member own absent few
      simp only [length_append, length_singleton]
      omega

theorem Reserved.leave {pid : Nat}
    (mine : pid ∈ ops.map Prod.fst) {d : Durable} (next : Kept start (leave m) d) :
    Reserved start (leave m, ops.eraseP fun op => op.1 = pid) := by
  have busy : ops ≠ [] := by
    rintro rfl
    exact not_mem_nil mine
  obtain ⟨d', kept⟩ := reserved.kept
  have stage := kept.stage
  rw [reserved.idle busy] at stage
  have off : m.log.committing = false := stage.2.2.1
  have count : m.log.outstanding = ops.length := reserved.count
  have block : (LogRecovery.leave m).log.block = m.log.block ∧
      (LogRecovery.leave m).log.outstanding = m.log.outstanding - 1 ∧
      (LogRecovery.leave m).stage ≠ .halted := by
    unfold LogRecovery.leave
    simp only [off, Bool.false_eq_true, if_false]
    split
    · refine ⟨rfl, rfl, ?_⟩
      split <;> simp
    · exact ⟨rfl, rfl, reserved.running⟩
  obtain ⟨op, member, own⟩ := mem_map.mp mine
  have shorter : (ops.eraseP fun op => op.1 = pid).length = ops.length - 1 :=
    length_eraseP_of_mem member (by simpa using own)
  have sub : (ops.eraseP fun op => op.1 = pid).Sublist ops := eraseP_sublist
  refine {
    kept := ⟨d, next⟩, running := block.2.2, count := ?_, pids := ?_, used := ?_
    room := fun _ => ?_ }
  · have positive := length_pos_iff.mpr busy
    simp only [block.2.1, shorter]
    omega
  · exact reserved.pids.sublist (sub.map _)
  · simp only [block.1]
    exact fun op here => reserved.used op (sub.subset here)
  · have room := reserved.room busy
    have less := budget_eraseP ops pid
    simp only [block.1]
    simp only at room
    omega

/-- A step that leaves the log's counters alone, or has no operation open. -/
theorem Reserved.other {m' : Machine} {d : Durable}
    (next : Kept start m' d) (running : m'.stage ≠ .halted)
    (counted : m'.log.outstanding = m.log.outstanding)
    (same : ops ≠ [] → m'.log.block = m.log.block) : Reserved start (m', ops) where
  kept := ⟨d, next⟩
  running := running
  count := counted.trans reserved.count
  pids := reserved.pids
  used op here := by
    simp only [same (ne_nil_of_mem here)]
    exact reserved.used op here
  room busy := by
    simp only [same busy]
    exact reserved.room busy

theorem Reserved.step {event : Event} (modest : Modest start (m, ops) event) :
    Reserved start (recorded (step start) Ops.record (m, ops) event) := by
  obtain ⟨possible, modest⟩ := modest
  obtain ⟨d, kept⟩ := reserved.kept
  have running : m.stage ≠ .halted := reserved.running
  have next := kept.act running possible
  change Reserved start (LogRecovery.step start m event, Ops.record m event ops)
  rw [step_running running]
  cases event with
  | beginOp pid => exact reserved.enter possible modest next
  | write pid blockno data =>
    have busy : ops ≠ [] := by
      obtain ⟨op, member, _⟩ := modest
      exact ne_nil_of_mem member
    have same := untouched_bread m blockno.toNat
    obtain ⟨log, wrote⟩ := reserved.accepts busy blockno.toNat
    have result : (change m blockno.toNat data).log = log ∧
        (change m blockno.toNat data).stage = m.stage := by
      simp only [change, same.log, wrote, same.stage, and_self]
    exact reserved.write next (result.2 ▸ running) result.1 wrote modest
  | endOp pid => exact reserved.leave modest next
  | read blockno =>
    have same := untouched_bread m blockno
    exact reserved.other next (same.stage ▸ running) (by rw [← same.log]; rfl)
      fun _ => by rw [← same.log]; rfl
  | evict blockno =>
    have same := untouched_evict m blockno
    exact reserved.other next (same.stage ▸ running) (by rw [← same.log]; rfl)
      fun _ => by rw [← same.log]; rfl
  | proceed =>
    refine reserved.other next (proceed_running running) (proceed_outstanding m) fun busy => ?_
    have idle := reserved.idle busy
    simp only [act, proceed, idle]
  | crash =>
    exact ⟨⟨_, next⟩, by simp [act, boot], rfl, nodup_nil, by simp [Ops.record],
      fun busy => absurd rfl busy⟩
end

end Steps

/-- If every operation writes at most nine blocks, neither `log_write` nor `end_op`
panics in any run, whatever the processes do in between. -/
theorem small_operations_never_panic (start : Nat) (disk : Nat → ByteStore.Bytes)
    (events : List Event) (formatted : decodeHead (disk start) = [])
    (modest : Allowed (recorded (step start) Ops.record) (Modest start) (boot disk, []) events) :
    (run (step start) (boot disk) events).stage ≠ .halted := by
  have initial : Reserved start (boot disk, []) :=
    ⟨⟨_, kept_boot (recoverable_nil formatted fun _ _ => rfl)⟩, by simp [boot], rfl,
      nodup_nil, by simp, fun busy => absurd rfl busy⟩
  have reserved := invariant (Reserved start) initial
    (fun state event reserved modest => reserved.step modest) modest
  have running := reserved.running
  rwa [run_recorded] at running

def threeWriters (writes : Nat) : List Event :=
  replicate 4 .proceed ++ [.beginOp 1, .beginOp 2, .beginOp 3] ++
    (range 3).flatMap (fun pid => (range writes).map fun index =>
      .write (pid + 1) (UInt32.ofNat (100 * pid + 40 + index)) fun _ => 0)

theorem three_operations_of_nine_blocks :
    (run (step 2) (boot fun _ _ => 0) (threeWriters 9)).stage ≠ .halted :=
  small_operations_never_panic 2 _ (threeWriters 9) (by decide) (by decide +kernel)

/-- With the ten blocks that `MAXOPBLOCKS` allows, the last write panics. -/
theorem three_operations_of_ten_blocks :
    (run (step 2) (boot fun _ _ => 0) (threeWriters 10)).stage = .halted := by
  decide +kernel

end OsProjects.LogCapacity
