import OsProjects.HeldLocks
import OsProjects.Runs

/-!
Sleep locks (`sleeplock.c`) over `sleep` and `wakeup` (`proc.c`), for any number
of processes and one shared step at a time. `sleep` takes `ptable.lock` before it
gives up the lock that guards the condition; the wake-up needs both, so it cannot
fall in between. Other code takes `ptable.lock` too, and `kill` wakes a sleeper at
any time.
-/

namespace OsProjects.SleepLocks

open Runs HeldLocks Function

inductive Point where
  | outside
  /-- spinning for `lk->lk` in `acquiresleep`, or again at the end of `sleep` -/
  | enter
  /-- at `while (lk->locked)` -/
  | check
  /-- in `sleep`, at `acquire(&ptable.lock)` -/
  | table
  /-- at `release(lk)` -/
  | unlock
  /-- about to set `chan` and `SLEEPING` and to call `sched` -/
  | doze
  | asleep
  /-- `RUNNABLE` again -/
  | woken
  /-- back from `sched` with `ptable.lock`: `chan = 0` -/
  | tidy
  /-- at `lk->locked = 1` -/
  | take
  /-- at the last `release` of `acquiresleep` -/
  | done
  /-- between `acquiresleep` and `releasesleep` -/
  | inside
  /-- spinning for `lk->lk` in `releasesleep` -/
  | give
  /-- at `lk->locked = 0` -/
  | clear
  /-- in `wakeup`, at `acquire(&ptable.lock)` -/
  | notify
  /-- at `wakeup1` -/
  | scan
  /-- at the `release` of `wakeup` -/
  | part
  /-- at the last `release` of `releasesleep` -/
  | quit
  deriving DecidableEq

structure System (Process : Type) where
  /-- the holder of the spin lock `lk->lk` -/
  lk : Option Process
  /-- the holder of `ptable.lock` among the processes here -/
  ptable : Option Process
  /-- `ptable.lock` is held by other code -/
  busy : Bool
  locked : Bool
  /-- `lk->pid`, `none` for 0 -/
  pid : Option Process
  point : Process → Point

inductive Move (Process : Type) where
  | acquiresleep (process : Process)
  | releasesleep (process : Process)
  | proceed (process : Process)
  | borrow
  | giveBack
  /-- by code that holds `ptable.lock` -/
  | kill (process : Process)

section Steps
variable {Process : Type} [DecidableEq Process]

def initsleeplock : System Process := ⟨none, none, false, false, none, fun _ => .outside⟩

def System.goto (s : System Process) (process : Process) (point : Point) : System Process :=
  { s with point := update s.point process point }

def wakeup1 (point : Process → Point) : Process → Point :=
  fun process => if point process = .asleep then .woken else point process

def proceed (s : System Process) (process : Process) : System Process :=
  match s.point process with
  | .outside | .asleep | .inside => s
  | .enter => if s.lk = none then { s.goto process .check with lk := some process } else s
  | .check => s.goto process (if s.locked then .table else .take)
  | .table =>
    if s.ptable = none ∧ s.busy = false then
      { s.goto process .unlock with ptable := some process }
    else s
  | .unlock => { s.goto process .doze with lk := none }
  -- the scheduler, which runs next, releases `ptable.lock`
  | .doze => { s.goto process .asleep with ptable := none }
  -- the scheduler, which chose the process, has taken it
  | .woken =>
    if s.ptable = none ∧ s.busy = false then
      { s.goto process .tidy with ptable := some process }
    else s
  | .tidy => { s.goto process .enter with ptable := none }
  | .take => { s.goto process .done with locked := true, pid := some process }
  | .done => { s.goto process .inside with lk := none }
  | .give => if s.lk = none then { s.goto process .clear with lk := some process } else s
  | .clear => { s.goto process .notify with locked := false, pid := none }
  | .notify =>
    if s.ptable = none ∧ s.busy = false then
      { s.goto process .scan with ptable := some process }
    else s
  | .scan => { s with point := update (wakeup1 s.point) process .part }
  | .part => { s.goto process .quit with ptable := none }
  | .quit => { s.goto process .outside with lk := none }

def act (s : System Process) : Move Process → System Process
  | .acquiresleep process => s.goto process .enter
  | .releasesleep process => s.goto process .give
  | .proceed process => proceed s process
  | .borrow => if s.ptable = none then { s with busy := true } else s
  | .giveBack => { s with busy := false }
  | .kill process => if s.point process = .asleep then s.goto process .woken else s

def Disciplined (s : System Process) : Move Process → Prop
  | .acquiresleep process => s.point process = .outside
  | .releasesleep process => s.point process = .inside
  | .kill _ => s.busy = true
  | _ => True

instance (s : System Process) : (move : Move Process) → Decidable (Disciplined s move)
  | .acquiresleep _ | .releasesleep _ | .kill _ => inferInstanceAs (Decidable (_ = _))
  | .proceed _ | .borrow | .giveBack => isTrue trivial

def holdingsleep (s : System Process) (process : Process) : Bool :=
  s.locked && s.pid == some process

end Steps

def hasLk : Point → Bool
  | .check | .table | .unlock | .take | .done | .clear | .notify | .scan | .part | .quit => true
  | _ => false

def hasTable : Point → Bool
  | .unlock | .doze | .tidy | .scan | .part => true
  | _ => false

def owner : Point → Bool
  | .done | .inside | .give | .clear => true
  | _ => false

def waking : Point → Bool
  | .notify | .scan => true
  | _ => false

abbrev HasLk (point : Point) : Prop := hasLk point = true

abbrev HasTable (point : Point) : Prop := hasTable point = true

abbrev Owner (point : Point) : Prop := owner point = true

abbrev Waking (point : Point) : Prop := waking point = true

section Safety
variable {Process : Type}

structure Safe (s : System Process) : Prop where
  lk : Held s.lk s.point HasLk
  ptable : Held s.ptable s.point HasTable
  owner : ∀ p, Owner (s.point p) ↔ s.locked = true ∧ s.pid = some p
  owned : s.locked = true → ∃ p, s.pid = some p
  free : ∀ p, s.point p = .take → s.locked = false
  -- the condition cannot change while the spin lock is held
  seen : ∀ p, s.point p = .table ∨ s.point p = .unlock → s.locked = true
  -- and afterwards whoever changes it still has to wake the sleeper
  sleeper : ∀ p, s.point p = .doze ∨ s.point p = .asleep →
    s.locked = true ∨ ∃ q, Waking (s.point q)

theorem safe_init : Safe (initsleeplock : System Process) where
  lk _ := iff_of_false (fun same => by cases same) Bool.false_ne_true
  ptable _ := iff_of_false (fun same => by cases same) Bool.false_ne_true
  owner _ := iff_of_false Bool.false_ne_true fun both => Bool.false_ne_true both.1
  owned locked := absurd locked Bool.false_ne_true
  free _ _ := rfl
  seen _ here := by rcases here with same | same <;> cases same
  sleeper _ here := by rcases here with same | same <;> cases same

/-- The other processes are not at a point that needs the spin lock. -/
theorem Safe.other_lk {s : System Process} (safe : Safe s) {p q : Process}
    (mine : HasLk (s.point p)) (other : q ≠ p) : ¬ HasLk (s.point q) :=
  fun theirs => other (safe.lk.unique theirs mine)

/-- `wakeup1` moves sleepers to a point with the same locks. -/
theorem wakeup1_iff {holds : Point → Prop} (same : holds .woken ↔ holds .asleep)
    (point : Process → Point) (q : Process) : holds (wakeup1 point q) ↔ holds (point q) := by
  unfold wakeup1
  split
  · rename_i sleeping
    rw [sleeping]
    exact same
  · exact Iff.rfl

end Safety

section Preservation
variable {Process : Type} [DecidableEq Process] {s : System Process} {p : Process}

section
variable (safe : Safe s)
include safe

/-- One process goes on; the sleep lock and the others stay. -/
theorem Safe.goto {next : Point} {lk ptable : Option Process} {busy : Bool}
    (lkHeld : Held lk (update s.point p next) HasLk)
    (tableHeld : Held ptable (update s.point p next) HasTable)
    (owner : Owner next ↔ Owner (s.point p)) (free : next = .take → s.locked = false)
    (seen : next = .table ∨ next = .unlock → s.locked = true)
    (sleeper : next = .doze ∨ next = .asleep → s.locked = true ∨ ∃ q, Waking (s.point q))
    (waking : Waking (s.point p) → Waking next) :
    Safe { s.goto p next with lk := lk, ptable := ptable, busy := busy } := by
  have still : (s.locked = true ∨ ∃ q, Waking (s.point q)) →
      s.locked = true ∨ ∃ q, Waking (update s.point p next q) := by
    rintro (locked | ⟨q, there⟩)
    · exact Or.inl locked
    · refine Or.inr ⟨q, ?_⟩
      by_cases same : q = p
      · subst same
        rw [update_self]
        exact waking there
      · rwa [update_of_ne same]
  refine {
    lk := lkHeld, ptable := tableHeld, owner := ?_, owned := safe.owned, free := ?_, seen := ?_
    sleeper := ?_ }
  · exact (forall_update_iff s.point fun q now =>
      Owner now ↔ s.locked = true ∧ s.pid = some q).mpr
      ⟨owner.trans (safe.owner p), fun q _ => safe.owner q⟩
  · exact (forall_update_iff s.point fun _ now => now = .take → s.locked = false).mpr
      ⟨free, fun q _ => safe.free q⟩
  · exact (forall_update_iff s.point fun _ now =>
      now = .table ∨ now = .unlock → s.locked = true).mpr ⟨seen, fun q _ => safe.seen q⟩
  · exact (forall_update_iff s.point fun _ now => now = .doze ∨ now = .asleep →
      s.locked = true ∨ ∃ q, Waking (update s.point p next q)).mpr
      ⟨fun here => still (sleeper here), fun q _ here => still (safe.sleeper q here)⟩

theorem Safe.take (here : s.point p = .take) :
    Safe { s.goto p .done with locked := true, pid := some p } := by
  have mine : HasLk (s.point p) := by rw [here]; rfl
  have none := safe.free p here
  refine {
    lk := safe.lk.keep (iff_of_true rfl mine)
    ptable := safe.ptable.keep (by rw [here]; exact Iff.rfl)
    owner := (forall_update_iff s.point fun q now => Owner now ↔ true = true ∧ some p = some q).mpr
      ⟨iff_of_true rfl ⟨rfl, rfl⟩, fun q same => ?_⟩
    owned := fun _ => ⟨p, rfl⟩
    free := (forall_update_iff s.point fun _ now => now = .take → true = false).mpr
      ⟨fun wrong => (by cases wrong), fun q same there => ?_⟩
    seen := fun _ _ => rfl, sleeper := fun _ _ => Or.inl rfl }
  · refine iff_of_false (fun owner => ?_) fun both => same (Option.some.inj both.2).symm
    have locked := ((safe.owner q).mp owner).1
    rw [none] at locked
    cases locked
  · exact absurd (by rw [there]; rfl) (safe.other_lk mine same)

theorem Safe.clear (here : s.point p = .clear) :
    Safe { s.goto p .notify with locked := false, pid := none } := by
  have mine : HasLk (s.point p) := by rw [here]; rfl
  have owner := (safe.owner p).mp (by rw [here]; rfl)
  refine {
    lk := safe.lk.keep (iff_of_true rfl mine)
    ptable := safe.ptable.keep (by rw [here]; exact Iff.rfl)
    owner := (forall_update_iff s.point fun q now => Owner now ↔ false = true ∧ none = some q).mpr
      ⟨iff_of_false (by decide) (fun both => by cases both.1),
        fun q same => iff_of_false (fun there => ?_) fun both => by cases both.1⟩
    owned := fun locked => by cases locked
    free := fun _ _ => rfl
    seen := (forall_update_iff s.point fun _ now =>
      now = .table ∨ now = .unlock → false = true).mpr ⟨by decide, fun q same there => ?_⟩
    sleeper := fun q _ => ?_ }
  · exact same (Option.some.inj (((safe.owner q).mp there).2.symm.trans owner.2))
  · refine absurd ?_ (safe.other_lk mine same)
    rcases there with there | there
    · rw [there]
      rfl
    · rw [there]
      rfl
  · refine Or.inr ⟨p, ?_⟩
    change Waking (update s.point p .notify p)
    rw [update_self]
    rfl

theorem Safe.scan (here : s.point p = .scan) :
    Safe { s with point := update (wakeup1 s.point) p .part } := by
  have mine : HasTable (s.point p) := by rw [here]; rfl
  have awake : wakeup1 s.point p = .scan := by
    unfold wakeup1
    rw [here]
    rfl
  have lk : Held s.lk (wakeup1 s.point) HasLk := safe.lk.congr (wakeup1_iff Iff.rfl s.point)
  have table : Held s.ptable (wakeup1 s.point) HasTable :=
    safe.ptable.congr (wakeup1_iff Iff.rfl s.point)
  -- a point other than `woken` was there before
  have before : ∀ {q : Process} {point : Point}, point ≠ .woken → point ≠ .part →
      update (wakeup1 s.point) p .part q = point → s.point q = point := by
    intro q point unwoken unpart there
    by_cases same : q = p
    · subst same
      rw [update_self] at there
      exact absurd there.symm unpart
    · rw [update_of_ne same] at there
      unfold wakeup1 at there
      split at there
      · exact absurd there.symm unwoken
      · exact there
  refine {
    lk := lk.keep (by rw [awake]; exact Iff.rfl)
    ptable := table.keep (by rw [awake]; exact Iff.rfl), owner := fun q => ?_, owned := safe.owned
    free := fun q there => safe.free q (before (by decide) (by decide) there)
    seen := fun q there => safe.seen q ?_, sleeper := fun q there => ?_ }
  · change Owner (update (wakeup1 s.point) p .part q) ↔ _
    by_cases same : q = p
    · subst same
      rw [update_self, ← safe.owner, here]
      exact Iff.rfl
    · rw [update_of_ne same]
      exact (wakeup1_iff Iff.rfl s.point q).trans (safe.owner q)
  · exact there.imp (before (by decide) (by decide)) (before (by decide) (by decide))
  · -- nobody can be on the way to sleep without `ptable.lock`, and nobody still sleeps
    exfalso
    rcases there with there | there
    · have dozing : s.point q = .doze := before (by decide) (by decide) there
      have theirs : HasTable (s.point q) := by rw [dozing]; rfl
      have same := safe.ptable.unique theirs mine
      rw [same, here] at dozing
      cases dozing
    · have sleeping : s.point q = .asleep := before (by decide) (by decide) there
      have same : q ≠ p := by
        rintro rfl
        rw [here] at sleeping
        cases sleeping
      change update (wakeup1 s.point) p .part q = _ at there
      rw [update_of_ne same] at there
      unfold wakeup1 at there
      rw [if_pos sleeping] at there
      cases there

/-- A step that neither goes to sleep nor has to do with the condition. -/
theorem Safe.pass {point next : Point} {lk ptable : Option Process}
    (here : s.point p = point) (lkHeld : Held lk (update s.point p next) HasLk)
    (tableHeld : Held ptable (update s.point p next) HasTable)
    (plain : (Owner next ↔ Owner point) ∧ (Waking point → Waking next) ∧
      next ∉ [.take, .table, .unlock, .doze, .asleep]) :
    Safe { s.goto p next with lk := lk, ptable := ptable } := by
  obtain ⟨owner, waking, other⟩ := plain
  simp only [List.mem_cons, List.not_mem_nil, or_false, not_or] at other
  obtain ⟨untake, untable, ununlock, undoze, unasleep⟩ := other
  refine safe.goto lkHeld tableHeld (here ▸ owner) (fun same => absurd same untake) ?_ ?_
    (here ▸ waking)
  · rintro (same | same)
    · exact absurd same untable
    · exact absurd same ununlock
  · rintro (same | same)
    · exact absurd same undoze
    · exact absurd same unasleep

theorem Safe.check (here : s.point p = .check) :
    Safe (s.goto p (if s.locked then .table else .take)) := by
  cases locked : s.locked with
  | true =>
    refine safe.goto (safe.lk.keep (by rw [here]; decide)) (safe.ptable.keep (by rw [here]; decide))
      (by rw [here]; decide) (fun same => by cases same) (fun _ => locked) ?_ (by rw [here]; decide)
    rintro (same | same) <;> cases same
  | false =>
    refine safe.goto (safe.lk.keep (by rw [here]; decide)) (safe.ptable.keep (by rw [here]; decide))
      (by rw [here]; decide) (fun _ => locked) ?_ ?_ (by rw [here]; decide)
    · rintro (same | same) <;> cases same
    · rintro (same | same) <;> cases same

theorem Safe.table (here : s.point p = .table) (free : s.ptable = none) :
    Safe { s.goto p .unlock with ptable := some p } := by
  refine safe.goto (safe.lk.keep (by rw [here]; decide)) (safe.ptable.take free rfl)
    (by rw [here]; decide) (fun same => by cases same) (fun _ => safe.seen p (Or.inl here)) ?_
    (by rw [here]; decide)
  rintro (same | same) <;> cases same

theorem Safe.unlock (here : s.point p = .unlock) : Safe { s.goto p .doze with lk := none } := by
  refine safe.goto (safe.lk.drop (by rw [here]; rfl) (by decide))
    (safe.ptable.keep (by rw [here]; decide)) (by rw [here]; decide) (fun same => by cases same) ?_
    (fun _ => Or.inl (safe.seen p (Or.inr here))) (by rw [here]; decide)
  rintro (same | same) <;> cases same

theorem Safe.doze (here : s.point p = .doze) : Safe { s.goto p .asleep with ptable := none } := by
  refine safe.goto (safe.lk.keep (by rw [here]; decide))
    (safe.ptable.drop (by rw [here]; rfl) (by decide)) (by rw [here]; decide)
    (fun same => by cases same) ?_ (fun _ => safe.sleeper p (Or.inl here)) (by rw [here]; decide)
  rintro (same | same) <;> cases same

theorem proceed_safe (p : Process) : Safe (proceed s p) := by
  unfold proceed
  split <;> rename_i here
  · exact safe
  · exact safe
  · exact safe
  · split
    · rename_i free
      exact safe.pass here (safe.lk.take free rfl) (safe.ptable.keep (by rw [here]; decide))
        (by decide)
    · exact safe
  · exact safe.check here
  · split
    · rename_i free
      exact safe.table here free.1
    · exact safe
  · exact safe.unlock here
  · exact safe.doze here
  · split
    · rename_i free
      exact safe.pass here (safe.lk.keep (by rw [here]; decide)) (safe.ptable.take free.1 rfl)
        (by decide)
    · exact safe
  · exact safe.pass here (safe.lk.keep (by rw [here]; decide))
      (safe.ptable.drop (by rw [here]; rfl) (by decide)) (by decide)
  · exact safe.take here
  · exact safe.pass here (safe.lk.drop (by rw [here]; rfl) (by decide))
      (safe.ptable.keep (by rw [here]; decide)) (by decide)
  · split
    · rename_i free
      exact safe.pass here (safe.lk.take free rfl) (safe.ptable.keep (by rw [here]; decide))
        (by decide)
    · exact safe
  · exact safe.clear here
  · split
    · rename_i free
      exact safe.pass here (safe.lk.keep (by rw [here]; decide)) (safe.ptable.take free.1 rfl)
        (by decide)
    · exact safe
  · exact safe.scan here
  · exact safe.pass here (safe.lk.keep (by rw [here]; decide))
      (safe.ptable.drop (by rw [here]; rfl) (by decide)) (by decide)
  · exact safe.pass here (safe.lk.drop (by rw [here]; rfl) (by decide))
      (safe.ptable.keep (by rw [here]; decide)) (by decide)

theorem act_safe {move : Move Process} (disciplined : Disciplined s move) : Safe (act s move) := by
  cases move with
  | acquiresleep p =>
    have here : s.point p = .outside := disciplined
    exact safe.pass here (safe.lk.keep (by rw [here]; decide))
      (safe.ptable.keep (by rw [here]; decide)) (by decide)
  | releasesleep p =>
    have here : s.point p = .inside := disciplined
    exact safe.pass here (safe.lk.keep (by rw [here]; decide))
      (safe.ptable.keep (by rw [here]; decide)) (by decide)
  | proceed p => exact proceed_safe safe p
  | borrow =>
    simp only [act]
    split
    · exact ⟨safe.lk, safe.ptable, safe.owner, safe.owned, safe.free, safe.seen, safe.sleeper⟩
    · exact safe
  | giveBack =>
    exact ⟨safe.lk, safe.ptable, safe.owner, safe.owned, safe.free, safe.seen, safe.sleeper⟩
  | kill p =>
    simp only [act]
    split
    · rename_i here
      exact safe.pass here (safe.lk.keep (by rw [here]; decide))
        (safe.ptable.keep (by rw [here]; decide)) (by decide)
    · exact safe
end

theorem safe_run {moves : List (Move Process)} (all : Allowed act Disciplined initsleeplock moves) :
    Safe (run act initsleeplock moves) :=
  invariant Safe safe_init (fun _ _ safe disciplined => act_safe safe disciplined) all

end Preservation

section Results
variable {Process : Type} [DecidableEq Process]

/-- However the steps of the processes are interleaved, one process at most is
between `acquiresleep` and `releasesleep`, `holdingsleep` tells it from the
others, and nobody sleeps on a lock that is free: then some process has it, or
has just given it back and is about to wake the sleepers. -/
theorem sleep_locks_lose_no_wakeup {moves : List (Move Process)}
    (all : Allowed act Disciplined initsleeplock moves) : let s := run act initsleeplock moves
    (∀ p q, s.point p = .inside → s.point q = .inside → p = q) ∧
      (∀ p, s.point p = .inside → ∀ q, holdingsleep s q = true ↔ q = p) ∧
      ∀ p, s.point p = .asleep → ∃ q, Owner (s.point q) ∨ Waking (s.point q) := by
  intro s
  have safe : Safe s := safe_run all
  have owns : ∀ p, s.point p = .inside → s.locked = true ∧ s.pid = some p := fun p here =>
    (safe.owner p).mp (by rw [here]; rfl)
  refine ⟨fun p q first second => ?_, fun p here q => ?_, fun p here => ?_⟩
  · exact Option.some.inj ((owns p first).2.symm.trans (owns q second).2)
  · obtain ⟨locked, pid⟩ := owns p here
    simp only [holdingsleep, locked, pid, Bool.true_and, beq_iff_eq, Option.some.injEq]
    exact eq_comm
  · rcases safe.sleeper p (Or.inr here) with locked | ⟨q, waking⟩
    · obtain ⟨q, pid⟩ := safe.owned locked
      exact ⟨q, Or.inl ((safe.owner q).mpr ⟨locked, pid⟩)⟩
    · exact ⟨q, Or.inr waking⟩

def contended : List (Move Bool) :=
  [.acquiresleep true] ++ List.replicate 4 (.proceed true) ++
    [.acquiresleep false] ++ List.replicate 5 (.proceed false) ++
    [.releasesleep true, .proceed true]

theorem contended_lock_has_an_owner :
    (run act initsleeplock contended).point false = .asleep ∧
      ∃ q, Owner ((run act initsleeplock contended).point q) ∨
        Waking ((run act initsleeplock contended).point q) :=
  ⟨by decide, (sleep_locks_lose_no_wakeup (by decide)).2.2 false (by decide)⟩

end Results

end OsProjects.SleepLocks
