import OsProjects.ThreadTable

/-!
The scheduler of `xv6-scheduling.patch` on one CPU. A pass decides once which
tickets may run (`trun`), and then walks the table and switches to every
`RUNNABLE` process with these tickets. In between, the process that runs may
wake others, create processes, change its tickets and give the CPU back in
several ways. A pass that started for the processes without tickets goes on for
them when one with tickets turns up.
-/

namespace OsProjects.PriorityScheduler

open Runs ThreadTable

structure Task where
  state : ProcState
  tickets : UInt32
  deriving DecidableEq

/-- Where the scheduler is: between two passes, in the walk before a slot, or
switched away to the process in a slot. -/
inductive Phase where
  | between
  | walking (trun : UInt32) (pos : Nat)
  | running (trun : UInt32) (slot : Slot)
  deriving DecidableEq

structure Cpu where
  task : Slot → Task
  phase : Phase

/-- What the running process can do. The last three give the CPU back. -/
inductive Action where
  | wake (slot : Slot)
  | fork (enough : Bool)
  | settickets (arg : Option UInt32)
  | reap (slot : Slot)
  | yield
  | sleep
  | exit
  deriving DecidableEq

inductive Event where
  /-- the scheduler takes its next step -/
  | scheduler
  | act (action : Action)
  deriving DecidableEq

def computeTrun (task : Slot → Task) : UInt32 :=
  if (List.finRange 64).any fun p => (task p).state = .runnable && (task p).tickets = 1 then 1 else 0

def Chosen (task : Slot → Task) (trun : UInt32) (slot : Slot) : Prop :=
  ¬ ((task slot).tickets ≠ trun ∨ (task slot).state ≠ .runnable)

instance (task : Slot → Task) (trun : UInt32) (slot : Slot) : Decidable (Chosen task trun slot) :=
  inferInstanceAs (Decidable (¬ _))

def Cpu.set (cpu : Cpu) (slot : Slot) (task : Task) : Cpu :=
  { cpu with task := Function.update cpu.task slot task }

/-- One step of `scheduler()`. The lock is released at the end of the walk. -/
def schedule (cpu : Cpu) : Cpu :=
  match cpu.phase with
  | .between => { cpu with phase := .walking (computeTrun cpu.task) 0 }
  | .walking trun pos =>
    if inside : pos < 64 then
      let slot : Slot := ⟨pos, inside⟩
      if Chosen cpu.task trun slot then
        { cpu.set slot { cpu.task slot with state := .running } with phase := .running trun slot }
      else { cpu with phase := .walking trun (pos + 1) }
    else { cpu with phase := .between }
  -- the scheduler is in `swtch` until the process hands the CPU back
  | .running _ _ => cpu

/-- `allocproc` gives one ticket, `fork` the tickets of the parent; without memory
the slot is given back. -/
def forkTask (cpu : Cpu) (cur : Slot) (enough : Bool) : Cpu :=
  match (List.finRange 64).find? fun p => (cpu.task p).state = .unused with
  | none => cpu
  | some np =>
    -- without memory for the child its slot keeps the ticket of `allocproc`
    if enough then cpu.set np ⟨.runnable, (cpu.task cur).tickets⟩ else cpu.set np ⟨.unused, 1⟩

def settickets (cpu : Cpu) (cur : Slot) : Option UInt32 → Cpu
  | none => cpu
  | some num =>
    if num ≠ 0 ∧ num ≠ 1 then cpu else cpu.set cur { cpu.task cur with tickets := num }

def handBack (cpu : Cpu) (trun : UInt32) (cur : Slot) (state : ProcState) : Cpu :=
  { cpu.set cur { cpu.task cur with state } with phase := .walking trun (cur.val + 1) }

def perform (cpu : Cpu) (trun : UInt32) (cur : Slot) : Action → Cpu
  | .wake slot =>
    if (cpu.task slot).state = .sleeping then
      cpu.set slot { cpu.task slot with state := .runnable }
    else cpu
  | .fork enough => forkTask cpu cur enough
  | .settickets arg => settickets cpu cur arg
  | .reap slot =>
    if (cpu.task slot).state = .zombie then
      cpu.set slot { cpu.task slot with state := .unused }
    else cpu
  | .yield => handBack cpu trun cur .runnable
  | .sleep => handBack cpu trun cur .sleeping
  | .exit => handBack cpu trun cur .zombie

def step (cpu : Cpu) : Event → Cpu
  | .scheduler => schedule cpu
  | .act action =>
    match cpu.phase with
    | .running trun cur => perform cpu trun cur action
    | _ => cpu

def Cpu.busy (cpu : Cpu) : Bool :=
  match cpu.phase with
  | .running _ _ => true
  | _ => false

def Possible (cpu : Cpu) : Event → Prop
  | .scheduler => cpu.busy = false
  | .act _ => cpu.busy = true

instance (cpu : Cpu) : (event : Event) → Decidable (Possible cpu event)
  | .scheduler => inferInstanceAs (Decidable (_ = _))
  | .act _ => inferInstanceAs (Decidable (_ = _))

def boot : Cpu where
  task p := if p = 0 then ⟨.runnable, 1⟩ else ⟨.unused, 0⟩
  phase := .between

def Switches (cpu : Cpu) (slot : Slot) : Prop :=
  ∃ trun, cpu.phase = .walking trun slot.val ∧ Chosen cpu.task trun slot

def Urgent (task : Slot → Task) : Prop :=
  ∃ p, (task p).state = .runnable ∧ (task p).tickets = 1

def Strict (cpu : Cpu) : Prop :=
  ∀ slot, Switches cpu slot → (cpu.task slot).tickets = 0 → ¬ Urgent cpu.task

def makesUrgent (cpu : Cpu) (cur : Slot) : Action → Bool
  | .wake slot => (cpu.task slot).state = .sleeping && (cpu.task slot).tickets = 1
  | .fork enough => enough && (cpu.task cur).tickets = 1
  | .yield => (cpu.task cur).tickets = 1
  | _ => false

def Modest (cpu : Cpu) : Event → Prop
  | .scheduler => True
  | .act action => ∀ cur, cpu.phase = .running 0 cur → makesUrgent cpu cur action = false

instance (cpu : Cpu) : (event : Event) → Decidable (Modest cpu event)
  | .scheduler => isTrue trivial
  | .act action => Nat.decidableForallFin fun cur =>
    cpu.phase = .running 0 cur → makesUrgent cpu cur action = false

section Passes
variable {cpu : Cpu}

theorem computeTrun_zero (task : Slot → Task) : computeTrun task = 0 ↔ ¬ Urgent task := by
  unfold computeTrun Urgent
  split
  · rename_i found
    simp only [List.any_eq_true, List.mem_finRange, Bool.and_eq_true, decide_eq_true_eq,
      true_and] at found
    simp [found]
  · rename_i missing
    simp only [List.any_eq_true, List.mem_finRange, Bool.and_eq_true, decide_eq_true_eq,
      true_and] at missing
    simp only [true_iff]
    exact missing

/-- A change of one process brings no urgent one but itself. -/
theorem calm_set (calm : ¬ Urgent cpu.task) (slot : Slot) {task : Task}
    (modest : task.state = .runnable → task.tickets ≠ 1) : ¬ Urgent (cpu.set slot task).task := by
  rintro ⟨p, runnable, tickets⟩
  by_cases same : p = slot
  · subst same
    simp only [Cpu.set, Function.update_self] at runnable tickets
    exact modest runnable tickets
  · simp only [Cpu.set, Function.update_of_ne same] at runnable tickets
    exact calm ⟨p, runnable, tickets⟩

structure Calm (cpu : Cpu) : Prop where
  walking : ∀ pos, cpu.phase = .walking 0 pos → ¬ Urgent cpu.task
  running : ∀ slot, cpu.phase = .running 0 slot → ¬ Urgent cpu.task
  current : ∀ trun slot, cpu.phase = .running trun slot → (cpu.task slot).state = .running

theorem Calm.strict (calm : Calm cpu) : Strict cpu := by
  rintro slot ⟨trun, phase, chosen⟩ none
  have tickets : (cpu.task slot).tickets = trun := by
    by_contra other
    exact chosen (Or.inl other)
  rw [none] at tickets
  exact calm.walking slot.val (tickets ▸ phase)

theorem Calm.of_between (here : cpu.phase = .between) : Calm cpu := by
  refine ⟨?_, ?_, ?_⟩
  · intro pos phase
    cases here.symm.trans phase
  · intro slot phase
    cases here.symm.trans phase
  · intro trun slot phase
    cases here.symm.trans phase

theorem Calm.of_walking {trun : UInt32} {pos : Nat} (here : cpu.phase = .walking trun pos)
    (calm : trun = 0 → ¬ Urgent cpu.task) : Calm cpu := by
  refine ⟨?_, ?_, ?_⟩
  · intro pos' phase
    cases here.symm.trans phase
    exact calm rfl
  · intro slot phase
    cases here.symm.trans phase
  · intro trun' slot phase
    cases here.symm.trans phase

theorem Calm.of_running {trun : UInt32} {slot : Slot} (here : cpu.phase = .running trun slot)
    (calm : trun = 0 → ¬ Urgent cpu.task) (runs : (cpu.task slot).state = .running) : Calm cpu := by
  refine ⟨?_, ?_, ?_⟩
  · intro pos phase
    cases here.symm.trans phase
  · intro slot' phase
    cases here.symm.trans phase
    exact calm rfl
  · intro trun' slot' phase
    cases here.symm.trans phase
    exact runs

theorem schedule_calm (calm : Calm cpu) : Calm (schedule cpu) := by
  unfold schedule
  split
  · exact Calm.of_walking rfl (computeTrun_zero cpu.task).mp
  · rename_i trun pos here
    have quiet : trun = 0 → ¬ Urgent cpu.task := fun none => calm.walking pos (none ▸ here)
    split
    · dsimp only
      split
      · exact Calm.of_running rfl (fun none => calm_set (quiet none) _ (by simp))
          (by simp [Cpu.set])
      · exact Calm.of_walking rfl quiet
    · exact Calm.of_between rfl
  · exact calm

/-- Another slot changes, or the one that runs keeps its state. -/
theorem set_current {cur slot : Slot} {task : Task} (runs : (cpu.task cur).state = .running)
    (kept : slot = cur → task.state = .running) : ((cpu.set slot task).task cur).state = .running := by
  by_cases same : slot = cur
  · subst same
    simpa [Cpu.set] using kept rfl
  · simpa [Cpu.set, Ne.symm same] using runs

/-- After an action the walk goes on, or the process runs on. -/
theorem perform_phase {trun : UInt32} {cur : Slot} (here : cpu.phase = .running trun cur)
    (runs : (cpu.task cur).state = .running) (action : Action) :
    (perform cpu trun cur action).phase = .walking trun (cur.val + 1) ∨
      ((perform cpu trun cur action).phase = .running trun cur ∧
        ((perform cpu trun cur action).task cur).state = .running) := by
  cases action with
  | wake slot =>
    simp only [perform]
    split
    · rename_i asleep
      exact Or.inr ⟨here, set_current runs (by rintro rfl; simp [runs] at asleep)⟩
    · exact Or.inr ⟨here, runs⟩
  | fork enough =>
    simp only [perform, forkTask]
    cases found : (List.finRange 64).find? fun p => (cpu.task p).state = .unused with
    | none => exact Or.inr ⟨here, runs⟩
    | some np =>
      have free : (cpu.task np).state = .unused := by simpa using List.find?_some found
      have other : np ≠ cur := by
        rintro rfl
        simp [runs] at free
      dsimp only
      split <;> exact Or.inr ⟨here, set_current runs (fun same => absurd same other)⟩
  | settickets arg =>
    cases arg with
    | none => exact Or.inr ⟨here, runs⟩
    | some num =>
      simp only [perform, settickets]
      split
      · exact Or.inr ⟨here, runs⟩
      · exact Or.inr ⟨here, set_current runs (fun _ => runs)⟩
  | reap slot =>
    simp only [perform]
    split
    · rename_i zombie
      exact Or.inr ⟨here, set_current runs (by rintro rfl; simp [runs] at zombie)⟩
    · exact Or.inr ⟨here, runs⟩
  | _ => exact Or.inl rfl

theorem perform_calm {cur : Slot} {action : Action} (here : cpu.phase = .running 0 cur)
    (runs : (cpu.task cur).state = .running) (calm : ¬ Urgent cpu.task)
    (modest : Modest cpu (.act action)) : ¬ Urgent (perform cpu 0 cur action).task := by
  have modest := modest cur here
  cases action with
  | wake slot =>
    simp only [perform]
    split
    · rename_i asleep
      exact calm_set calm slot (fun _ => by simpa [makesUrgent, asleep] using modest)
    · exact calm
  | fork enough =>
    simp only [perform, forkTask]
    split
    · exact calm
    · split
      · rename_i created
        exact calm_set calm _ (fun _ => by simpa [makesUrgent, created] using modest)
      · exact calm_set calm _ (by simp)
  | settickets arg =>
    cases arg with
    | none => exact calm
    | some num =>
      simp only [perform, settickets]
      split
      · exact calm
      · -- the caller is running, and only runnable tasks are urgent
        exact calm_set calm cur (by simp [runs])
  | reap slot =>
    simp only [perform]
    split
    · exact calm_set calm slot (by simp)
    · exact calm
  | yield => exact calm_set calm cur (fun _ => by simpa [makesUrgent] using modest)
  | sleep | exit => exact calm_set calm cur (by simp)

theorem step_calm (calm : Calm cpu) {event : Event} (modest : Modest cpu event) :
    Calm (step cpu event) := by
  cases event with
  | scheduler => exact schedule_calm calm
  | act action =>
    simp only [step]
    split
    · rename_i trun cur here
      have runs := calm.current trun cur here
      have urgent : trun = 0 → ¬ Urgent (perform cpu trun cur action).task := by
        rintro rfl
        exact perform_calm here runs (calm.running cur here) modest
      rcases perform_phase here runs action with walks | ⟨stays, still⟩
      · exact Calm.of_walking walks urgent
      · exact Calm.of_running stays urgent still
    · exact calm

theorem boot_calm : Calm boot := Calm.of_between rfl

/-- In every run whose actions are modest, the scheduler never switches to a
process without tickets while one with a ticket is `RUNNABLE`. -/
theorem strict_when_modest {events : List Event}
    (all : Allowed step (fun cpu event => Possible cpu event ∧ Modest cpu event) boot events) :
    Strict (run step boot events) := by
  have calm : Calm (run step boot events) :=
    invariant Calm boot_calm (fun _ _ calm allowed => step_calm calm allowed.2) all
  exact calm.strict

end Passes

/-- Init starts two processes and sleeps, and they give up their tickets. The
next pass is for them, and the first of them runs. -/
def twoWithout : List Event :=
  [.scheduler, .scheduler, .act (.fork true), .act (.fork true), .act .sleep,
    .scheduler, .act (.settickets (some 0)), .act .yield,
    .scheduler, .act (.settickets (some 0)), .act .yield] ++
  List.replicate 62 .scheduler ++ [.scheduler, .scheduler, .scheduler]

/-- When it only yields, the other one may run. -/
theorem twoWithout_strict :
    Allowed step (fun cpu event => Possible cpu event ∧ Modest cpu event) boot
        (twoWithout ++ [.act .yield]) ∧
      Strict (run step boot (twoWithout ++ [.act .yield])) := by
  have all : Allowed step (fun cpu event => Possible cpu event ∧ Modest cpu event) boot
      (twoWithout ++ [.act .yield]) := by decide +kernel
  exact ⟨all, strict_when_modest all⟩

/-- When it wakes init first, the scheduler still switches to the other one. -/
theorem woken_init_is_passed_over :
    Allowed step Possible boot (twoWithout ++ [.act (.wake 0), .act .yield]) ∧
      ¬ Strict (run step boot (twoWithout ++ [.act (.wake 0), .act .yield])) := by
  refine ⟨by decide +kernel, ?_⟩
  intro strict
  have phase : (run step boot (twoWithout ++ [.act (.wake 0), .act .yield])).phase =
      .walking 0 2 := by decide +kernel
  have chosen : Chosen (run step boot (twoWithout ++ [.act (.wake 0), .act .yield])).task 0 2 := by
    decide +kernel
  have first : (run step boot (twoWithout ++ [.act (.wake 0), .act .yield])).task 0 =
      ⟨.runnable, 1⟩ := by decide +kernel
  have second : (run step boot (twoWithout ++ [.act (.wake 0), .act .yield])).task 2 =
      ⟨.runnable, 0⟩ := by decide +kernel
  exact strict 2 ⟨0, phase, chosen⟩ (by rw [second]) ⟨0, by rw [first], by rw [first]⟩

end OsProjects.PriorityScheduler
