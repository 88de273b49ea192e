import OsProjects.ThreadTable

/-!
What a call of the process table can do, once and for all: nothing, take a slot
in vain, create a process or a thread, exit, collect a child, or replace the
address space. Every slot but one keeps its process, its parent, its page
directory and its kernel stack, up to sleeping and waking.
-/

namespace OsProjects.ThreadOutcomes

open ThreadTable

variable {k k' : Kernel} {call : Call}

/-- A process that a call does not touch, except that it may fall asleep or be
woken. -/
structure Alike (proc proc' : Proc) : Prop where
  pid : proc'.pid = proc.pid
  parent : proc'.parent = proc.parent
  pgdir : proc'.pgdir = proc.pgdir
  kstack : proc'.kstack = proc.kstack
  unused : proc'.state = .unused ↔ proc.state = .unused
  zombie : proc'.state = .zombie ↔ proc.state = .zombie

theorem Alike.refl (proc : Proc) : Alike proc proc := ⟨rfl, rfl, rfl, rfl, Iff.rfl, Iff.rfl⟩

structure Appends (k k' : Kernel) (dirs freevms kfrees : List Addr) (returned : List UInt32) :
    Prop where
  initproc : k'.initproc = k.initproc
  dirs : k'.dirs = k.dirs ++ dirs
  freevms : k'.freevms = k.freevms ++ freevms
  kfrees : k'.kfrees = k.kfrees ++ kfrees
  returned : k'.returned = k.returned ++ returned

def sharers (k : Kernel) (p : Slot) : Nat :=
  (List.finRange 64).countP fun np => np ≠ p ∧ (k.proc np).pgdir = (k.proc p).pgdir

def Scratch (call : Call) (scratch : List Addr) : Prop := scratch = [] ∨ scratch = call.dirs

inductive Outcome (k : Kernel) (call : Call) (k' : Kernel) : Prop where
  /-- nothing, or the caller fell asleep -/
  | quiet (scratch : List Addr) (given : Scratch call scratch)
      (nobody : leaver k call = none) (alike : ∀ i, Alike (k.proc i) (k'.proc i))
      (nextpid : k'.nextpid = k.nextpid) (appends : Appends k k' scratch scratch [] [])
  /-- a slot was taken and given back -/
  | spoiled (p : Slot) (scratch pages : List Addr) (given : Scratch call scratch)
      (asks : call.kallocs ≠ []) (pagesGiven : pages = [] ∨ pages = call.kallocs)
      (nobody : leaver k call = none) (free : (k.proc p).state = .unused)
      (still : (k'.proc p).state = .unused) (parent : (k'.proc p).parent = (k.proc p).parent)
      (others : ∀ i, i ≠ p → Alike (k.proc i) (k'.proc i)) (nextpid : k'.nextpid = k.nextpid + 1)
      (appends : Appends k k' scratch scratch pages [])
  /-- a process or a thread was created -/
  | created (p : Slot) (dirs : List Addr)
      (source : (dirs = [(k'.proc p).pgdir] ∧ call.dirs = dirs) ∨
        (dirs = [] ∧ (k'.proc p).pgdir = (k.proc call.cur).pgdir))
      (nobody : leaver k call = none) (free : (k.proc p).state = .unused)
      (alive : (k'.proc p).state = .runnable) (pid : (k'.proc p).pid = k.nextpid)
      (parent : (k'.proc p).parent = some call.cur)
      (stack : call.kallocs = [(k'.proc p).kstack] ∧ (k'.proc p).kstack ≠ 0)
      (others : ∀ i, i ≠ p → Alike (k.proc i) (k'.proc i)) (nextpid : k'.nextpid = k.nextpid + 1)
      (appends : Appends k k' dirs [] [] [])
  /-- the caller exited -/
  | exited (leaves : call = .exit call.cur)
      (self : (k'.proc call.cur).state = .zombie)
      (others : ∀ i, i ≠ call.cur →
        ((k'.proc i).state = .unused ↔ (k.proc i).state = .unused) ∧
          ((k'.proc i).state = .zombie ↔ (k.proc i).state = .zombie))
      (parent : ∀ i, (k'.proc i).parent =
        if (k.proc i).parent = some call.cur then some k.initproc else (k.proc i).parent)
      (same : ∀ i, (k'.proc i).pid = (k.proc i).pid ∧ (k'.proc i).pgdir = (k.proc i).pgdir ∧
        (k'.proc i).kstack = (k.proc i).kstack)
      (nextpid : k'.nextpid = k.nextpid) (appends : Appends k k' [] [] [] [])
  /-- the caller collected a child -/
  | collected (p : Slot) (freevms : List Addr) (found : collected k call = some p)
      (zombie : (k.proc p).state = .zombie)
      (how : (call = .wait call.cur ∧ WaitsFor k call.cur p ∧
          freevms = List.replicate (sharers k p) (k.proc p).pgdir) ∨
        (call = .join call.cur ∧ JoinsWith k call.cur p ∧ freevms = []))
      (cleared : (k'.proc p).state = .unused ∧ (k'.proc p).parent = none)
      (others : ∀ i, i ≠ p → Alike (k.proc i) (k'.proc i)) (nextpid : k'.nextpid = k.nextpid)
      (appends : Appends k k' [] freevms [(k.proc p).kstack] [(k.proc p).pid])
  /-- the caller left its address space by `exec` -/
  | replaced (dir : call.dirs = [(k'.proc call.cur).pgdir])
      (isExec : ∃ sz sp, call = .exec call.cur (.built (k'.proc call.cur).pgdir) sz sp)
      (self : Alike { k.proc call.cur with pgdir := (k'.proc call.cur).pgdir } (k'.proc call.cur))
      (others : ∀ i, i ≠ call.cur → Alike (k.proc i) (k'.proc i))
      (nextpid : k'.nextpid = k.nextpid)
      (appends : Appends k k' call.dirs [(k.proc call.cur).pgdir] [] [])

theorem Appends.nothing (k : Kernel) : Appends k k [] [] [] [] := by
  constructor <;> simp

theorem Appends.counted (k : Kernel) :
    Appends k { k with nextpid := k.nextpid + 1 } [] [] [] [] := by
  constructor <;> simp

theorem Appends.set {dirs freevms kfrees : List Addr} {returned : List UInt32}
    (appends : Appends k k' dirs freevms kfrees returned) (p : Slot) (proc : Proc) :
    Appends k (k'.set p proc) dirs freevms kfrees returned :=
  ⟨appends.initproc, appends.dirs, appends.freevms, appends.kfrees, appends.returned⟩

theorem Appends.kfree {dirs freevms : List Addr} (appends : Appends k k' dirs freevms [] [])
    (page : Addr) : Appends k (k'.kfree page) dirs freevms [page] [] :=
  ⟨appends.initproc, appends.dirs, appends.freevms, by simp [Kernel.kfree, appends.kfrees],
    appends.returned⟩

@[simp] theorem set_self (k : Kernel) (p : Slot) (proc : Proc) : (k.set p proc).proc p = proc := by
  simp [Kernel.set]

@[simp] theorem set_other (k : Kernel) {p i : Slot} (proc : Proc) (other : i ≠ p) :
    (k.set p proc).proc i = k.proc i := by
  simp [Kernel.set, other]

theorem Alike.inUse_iff {p : Slot} (alike : Alike (k.proc p) (k'.proc p)) :
    InUse k' p ↔ InUse k p :=
  not_congr alike.unused

theorem CanCall.inUse (canCall : CanCall k call) : InUse k call.cur := by
  rcases canCall.1 with runs | runs <;> simp [InUse, runs]

theorem Alike.of_eq {proc proc' : Proc} (same : proc' = proc) : Alike proc proc' :=
  same ▸ Alike.refl proc

def taken (k : Kernel) (p : Slot) (stack : Addr) : Kernel :=
  { k with nextpid := k.nextpid + 1 }.set p
    { k.proc p with state := .embryo, pid := k.nextpid, kstack := stack }

theorem allocproc_cases (k : Kernel) (stack : Addr) :
    allocproc k stack = (none, k) ∨
      (∃ p, (k.proc p).state = .unused ∧ stack = 0 ∧ allocproc k stack =
        (none, { k with nextpid := k.nextpid + 1 }.set p
          { k.proc p with state := .unused, pid := k.nextpid, kstack := stack })) ∨
      ∃ p, (k.proc p).state = .unused ∧ stack ≠ 0 ∧ allocproc k stack = (some p, taken k p stack) := by
  unfold allocproc
  cases found : (List.finRange 64).find? fun p => (k.proc p).state = .unused with
  | none => exact Or.inl rfl
  | some p =>
    have free : (k.proc p).state = .unused := by simpa using List.find?_some found
    by_cases full : stack = 0
    · exact Or.inr (Or.inl ⟨p, free, full, by simp only [if_pos full]⟩)
    · exact Or.inr (Or.inr ⟨p, free, full, by simp only [if_neg full]; rfl⟩)

@[simp] theorem taken_other (k : Kernel) {p i : Slot} (stack : Addr) (other : i ≠ p) :
    (taken k p stack).proc i = k.proc i := by
  simp [taken, other]

theorem taken_appends (k : Kernel) (p : Slot) (stack : Addr) :
    Appends k (taken k p stack) [] [] [] [] :=
  (Appends.counted k).set _ _

@[simp] theorem setupkvm_proc (k : Kernel) (build : Build) : (setupkvm k build).proc = k.proc := by
  cases build with
  | built pgdir => rfl
  | failed scratch => cases scratch <;> rfl

@[simp] theorem setupkvm_nextpid (k : Kernel) (build : Build) :
    (setupkvm k build).nextpid = k.nextpid := by
  cases build with
  | built pgdir => rfl
  | failed scratch => cases scratch <;> rfl

theorem Appends.setupkvm_failed (appends : Appends k k' [] [] [] []) (scratch : Option Addr) :
    Appends k (setupkvm k' (.failed scratch)) scratch.toList scratch.toList [] [] := by
  obtain ⟨initproc, dirs, freevms, kfrees, returned⟩ := appends
  cases scratch with
  | none => exact ⟨initproc, dirs, freevms, kfrees, returned⟩
  | some pgdir =>
    refine ⟨initproc, ?_, ?_, kfrees, returned⟩
    · simp [setupkvm, Kernel.freevm, dirs]
    · simp [setupkvm, Kernel.freevm, freevms]

theorem Appends.setupkvm_built (appends : Appends k k' [] [] [] []) (pgdir : Addr) :
    Appends k (setupkvm k' (.built pgdir)) [pgdir] [] [] [] := by
  obtain ⟨initproc, dirs, freevms, kfrees, returned⟩ := appends
  exact ⟨initproc, by simp [setupkvm, dirs], freevms, kfrees, returned⟩

theorem fork_outcome (k : Kernel) (cur : Slot) (stack : Addr) (copy : Build) :
    Outcome k (.fork cur stack copy) (fork k cur stack copy).2 := by
  unfold fork
  rcases allocproc_cases k stack with full | ⟨p, free, _, result⟩ | ⟨p, free, some, result⟩
  · simp only [full]
    exact .quiet [] (Or.inl rfl) rfl (fun _ => Alike.refl _) rfl (Appends.nothing k)
  · simp only [result]
    exact .spoiled p [] [] (Or.inl rfl) (List.cons_ne_nil _ _) (Or.inl rfl) rfl free (by simp)
      (by simp) (fun i other => Alike.of_eq (by simp [other])) rfl
      ((Appends.counted k).set _ _)
  · simp only [result]
    cases copy with
    | failed scratch =>
      have page : ((setupkvm (taken k p stack) (.failed scratch)).proc p).kstack = stack := by
        simp [taken]
      dsimp only
      rw [page]
      exact .spoiled p scratch.toList [stack] (Or.inr rfl) (List.cons_ne_nil _ _) (Or.inr rfl)
        rfl free (by simp) (by simp [taken])
        (fun i other => Alike.of_eq (by simp [Kernel.kfree, other]))
        (by simp [Kernel.set, Kernel.kfree, taken])
        ((((taken_appends k p stack).setupkvm_failed scratch).kfree _).set _ _)
    | built pgdir =>
      exact .created p [pgdir] (Or.inl ⟨by simp, rfl⟩) rfl free (by simp) (by simp [taken])
        (by simp [Call.cur]) (by simp [taken, Call.kallocs, some])
        (fun i other => Alike.of_eq (by simp [other]))
        (by simp [Kernel.set, taken])
        (((taken_appends k p stack).setupkvm_built pgdir).set _ _)

theorem clone_outcome (k : Kernel) (cur : Slot) (stack : UInt32) (kstack : Addr)
    (alive : (k.proc cur).state ≠ .unused) :
    Outcome k (.clone cur stack kstack) (clone k cur stack kstack).2 := by
  have nothing : Outcome k (.clone cur stack kstack) k :=
    .quiet [] (Or.inl rfl) rfl (fun _ => Alike.refl _) rfl (Appends.nothing k)
  unfold clone
  split
  · exact nothing
  · split
    · exact nothing
    · rcases allocproc_cases k kstack with full | ⟨p, free, _, result⟩ | ⟨p, free, some, result⟩
      · simp only [full]
        exact nothing
      · simp only [result]
        exact .spoiled p [] [] (Or.inl rfl) (List.cons_ne_nil _ _) (Or.inl rfl) rfl free (by simp)
          (by simp) (fun i other => Alike.of_eq (by simp [other])) rfl
          ((Appends.counted k).set _ _)
      · simp only [result]
        have other : cur ≠ p := fun same => alive (same ▸ free)
        exact .created p [] (Or.inr ⟨rfl, by simp [Call.cur, other]⟩) rfl free (by simp)
          (by simp [taken]) (by simp [Call.cur]) (by simp [taken, Call.kallocs, some])
          (fun i other => Alike.of_eq (by simp [other])) (by simp [Kernel.set, taken])
          ((taken_appends k p kstack).set _ _)

theorem exec_outcome (k : Kernel) (cur : Slot) (build : Build) (sz sp : UInt32) :
    Outcome k (.exec cur build sz sp) (exec k cur build sz sp).2 := by
  unfold exec
  cases build with
  | failed scratch =>
    exact .quiet scratch.toList (Or.inr rfl) rfl (fun i => Alike.of_eq (by simp)) (by simp)
      ((Appends.nothing k).setupkvm_failed scratch)
  | built pgdir =>
    have appends := ((Appends.nothing k).setupkvm_built pgdir).set cur
      { k.proc cur with pgdir, sz, esp := sp }
    refine .replaced ?_ ?_ ?_ ?_ rfl ?_
    · simp [Kernel.freevm, Call.dirs, Build.dirs, Call.cur]
    · exact ⟨sz, sp, by simp [Kernel.freevm, Call.cur]⟩
    · constructor <;> simp [Kernel.freevm, Call.cur]
    · intro i other
      exact Alike.of_eq (by simp [Kernel.freevm, show i ≠ cur from other])
    · exact ⟨appends.initproc, appends.dirs, by simp [Kernel.freevm, Kernel.set, setupkvm, Call.cur],
        appends.kfrees, appends.returned⟩

theorem wakeup1_alike (k : Kernel) (chan : Option Slot) (i : Slot) :
    Alike (k.proc i) ((wakeup1 k chan).proc i) := by
  unfold wakeup1
  dsimp only
  split
  · rename_i asleep
    constructor <;> simp [asleep.1]
  · exact Alike.refl _

theorem reparent_parent (k : Kernel) (cur i : Slot) : ((reparent k cur).proc i).parent =
    if (k.proc i).parent = some cur then some k.initproc else (k.proc i).parent := by
  simp only [reparent]
  split <;> rfl

theorem reparent_same (k : Kernel) (cur i : Slot) :
    ((reparent k cur).proc i).pid = (k.proc i).pid ∧
      ((reparent k cur).proc i).pgdir = (k.proc i).pgdir ∧
      ((reparent k cur).proc i).kstack = (k.proc i).kstack ∧
      ((reparent k cur).proc i).state = (k.proc i).state := by
  simp only [reparent]
  split <;> exact ⟨rfl, rfl, rfl, rfl⟩

theorem exit_eq (k : Kernel) (cur : Slot) : ∃ k3 : Kernel,
    exit k cur = k3.set cur { k3.proc cur with state := .zombie } ∧
      (∀ i, Alike ((reparent (wakeup1 k (k.proc cur).parent) cur).proc i) (k3.proc i)) ∧
      k3.nextpid = k.nextpid ∧ Appends k k3 [] [] [] [] := by
  refine ⟨_, rfl, ?_, ?_, ?_⟩
  · intro i
    split
    · exact wakeup1_alike _ _ i
    · exact Alike.refl _
  · split <;> rfl
  · split <;> constructor <;> simp [wakeup1, reparent]

theorem exit_kept (k : Kernel) (cur i : Slot) :
    ((exit k cur).proc i).pid = (k.proc i).pid ∧ ((exit k cur).proc i).parent =
        (if (k.proc i).parent = some cur then some k.initproc else (k.proc i).parent) ∧
      ((exit k cur).proc i).pgdir = (k.proc i).pgdir ∧
      ((exit k cur).proc i).kstack = (k.proc i).kstack := by
  obtain ⟨k3, result, alike, _⟩ := exit_eq k cur
  have woken := wakeup1_alike k (k.proc cur).parent i
  obtain ⟨pid, pgdir, kstack, _⟩ := reparent_same (wakeup1 k (k.proc cur).parent) cur i
  have parent := reparent_parent (wakeup1 k (k.proc cur).parent) cur i
  have kept : ((exit k cur).proc i).pid = (k3.proc i).pid ∧
      ((exit k cur).proc i).parent = (k3.proc i).parent ∧
      ((exit k cur).proc i).pgdir = (k3.proc i).pgdir ∧
      ((exit k cur).proc i).kstack = (k3.proc i).kstack := by
    rw [result]
    by_cases self : i = cur
    · rw [self, set_self]
      exact ⟨rfl, rfl, rfl, rfl⟩
    · rw [set_other _ _ self]
      exact ⟨rfl, rfl, rfl, rfl⟩
  obtain ⟨pid', parent', pgdir', kstack'⟩ := kept
  rw [pid', parent', pgdir', kstack', (alike i).pid, (alike i).parent, (alike i).pgdir,
    (alike i).kstack, pid, parent, pgdir, kstack, woken.pid, woken.parent, woken.pgdir, woken.kstack]
  exact ⟨rfl, rfl, rfl, rfl⟩

theorem exit_outcome (k : Kernel) (cur : Slot) : Outcome k (.exit cur) (exit k cur) := by
  obtain ⟨k3, result, alike, nextpid, appends⟩ := exit_eq k cur
  have woken := wakeup1_alike k (k.proc cur).parent
  refine .exited rfl ?_ ?_ (fun i => (exit_kept k cur i).2.1) ?_ ?_ ?_
  · simp [result, Call.cur]
  · intro i (other : i ≠ cur)
    obtain ⟨_, _, _, same⟩ := reparent_same (wakeup1 k (k.proc cur).parent) cur i
    rw [result, set_other _ _ other, (alike i).unused, (alike i).zombie, same, (woken i).unused,
      (woken i).zombie]
    exact ⟨Iff.rfl, Iff.rfl⟩
  · intro i
    obtain ⟨pid, _, pgdir, kstack⟩ := exit_kept k cur i
    exact ⟨pid, pgdir, kstack⟩
  · rw [result]
    exact nextpid
  · rw [result]
    exact appends.set _ _

theorem scan_child {cur p : Slot} {child : Slot → Bool} (found : scan k cur child = .child p) :
    child p = true ∧ (k.proc p).state = .zombie := by
  unfold scan at found
  split at found
  · rename_i q first
    cases found
    simpa using List.find?_some first
  · split at found <;> cases found

theorem freeShared_eq (k : Kernel) (p : Slot) : freeShared k p =
    { k with freevms := k.freevms ++ List.replicate (sharers k p) (k.proc p).pgdir } := by
  unfold freeShared sharers
  generalize List.finRange 64 = slots
  induction slots generalizing k with
  | nil => simp
  | cons np rest ih =>
    rw [List.foldl_cons, ih]
    by_cases shares : np ≠ p ∧ (k.proc np).pgdir = (k.proc p).pgdir
    · simp [shares, Kernel.freevm, List.replicate_succ]
    · simp only [if_neg shares]
      simp [shares]

theorem sleep_outcome {cur : Slot} (nobody : leaver k call = none)
    (runs : (k.proc cur).state = .runnable ∨ (k.proc cur).state = .running) :
    Outcome k call (sleep k cur) := by
  refine .quiet [] (Or.inl rfl) nobody ?_ rfl ((Appends.nothing k).set _ _)
  intro i
  by_cases same : i = cur
  · rw [same]
    rcases runs with runs | runs <;> constructor <;> simp [sleep, runs]
  · exact Alike.of_eq (by simp [sleep, same])

theorem wait_outcome {cur : Slot}
    (runs : (k.proc cur).state = .runnable ∨ (k.proc cur).state = .running) :
    Outcome k (.wait cur) (deliver (wait k cur).2 (wait k cur).1) := by
  unfold wait
  cases found : scan k cur fun p => WaitsFor k cur p with
  | nobody =>
    exact .quiet [] (Or.inl rfl) (by simp [leaver, collected, found]) (fun _ => Alike.refl _) rfl
      (Appends.nothing k)
  | later => exact sleep_outcome (by simp [leaver, collected, found]) runs
  | child p =>
    obtain ⟨waits, zombie⟩ := scan_child found
    have waits : WaitsFor k cur p := by simpa using waits
    have same : sharers (k.kfree (k.proc p).kstack) p = sharers k p := rfl
    dsimp only
    rw [freeShared_eq, same]
    refine .collected p _ (by simp [collected, found]) zombie (Or.inl ⟨rfl, waits, rfl⟩) ?_ ?_ rfl ?_
    · simp [deliver, Proc.cleared]
    · intro i other
      exact Alike.of_eq (by simp [deliver, Kernel.set, Kernel.kfree, other])
    · constructor <;> simp [deliver, Kernel.set, Kernel.kfree]

theorem join_outcome {cur : Slot}
    (runs : (k.proc cur).state = .runnable ∨ (k.proc cur).state = .running) :
    Outcome k (.join cur) (deliver (join k cur).2.2 (join k cur).1) := by
  unfold join
  cases found : scan k cur fun p => JoinsWith k cur p with
  | nobody =>
    exact .quiet [] (Or.inl rfl) (by simp [leaver, collected, found]) (fun _ => Alike.refl _) rfl
      (Appends.nothing k)
  | later => exact sleep_outcome (by simp [leaver, collected, found]) runs
  | child p =>
    obtain ⟨joins, zombie⟩ := scan_child found
    have joins : JoinsWith k cur p := by simpa using joins
    refine .collected p [] (by simp [collected, found]) zombie (Or.inr ⟨rfl, joins, rfl⟩) ?_ ?_ rfl ?_
    · simp [deliver, Proc.cleared]
    · intro i other
      exact Alike.of_eq (by simp [deliver, Kernel.set, Kernel.kfree, other])
    · constructor <;> simp [deliver, Kernel.set, Kernel.kfree]

theorem step_outcome (canCall : CanCall k call) : Outcome k call (step k call) := by
  obtain ⟨runs, _⟩ := canCall
  cases call with
  | fork cur stack copy => exact fork_outcome k cur stack copy
  | clone cur stack kstack =>
    apply clone_outcome
    rcases runs with runs | runs <;> simp only [Call.cur] at runs <;> simp [runs]
  | exec cur build sz sp => exact exec_outcome k cur build sz sp
  | exit cur => exact exit_outcome k cur
  | wait cur => exact wait_outcome runs
  | join cur => exact join_outcome runs

end OsProjects.ThreadOutcomes
