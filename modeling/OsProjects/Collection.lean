import OsProjects.ThreadOutcomes

/-!
`wait` and `join` collect exited children. A pid names one process for ever, a
process in use keeps its pid, its kernel stack and its parent until it is
collected or its parent exits, and a collected slot has no parent. So each child
is collected once, by its creator or by init after the creator has exited, with the
call that its page directory asks for, and its kernel stack is freed with it.
-/

namespace OsProjects.Collection

open Runs ThreadTable ThreadOutcomes

variable {k k' : Kernel} {call : Call}

/-- The parent of a child of `q` after a call: init once `q` exits. -/
def heir (k : Kernel) (call : Call) (q : Slot) : Slot := if call = .exit q then k.initproc else q

def GoesOn (k : Kernel) (call : Call) (k' : Kernel) (p : Slot) : Prop :=
  InUse k' p ∧ (k'.proc p).pid = (k.proc p).pid ∧ (k'.proc p).kstack = (k.proc p).kstack ∧
    (k'.proc p).parent = (k.proc p).parent.map (heir k call)

structure CollectsRightly (k : Kernel) (call : Call) : Prop where
  returned : (step k call).returned =
    k.returned ++ (collected k call).toList.map fun p => (k.proc p).pid
  child : ∀ p, collected k call = some p →
    (k.proc p).state = .zombie ∧ (k.proc p).parent = some call.cur
  rightCall : ∀ p, collected k call = some p →
    (call = .wait call.cur ∧ (k.proc p).pgdir ≠ (k.proc call.cur).pgdir) ∨
      (call = .join call.cur ∧ (k.proc p).pgdir = (k.proc call.cur).pgdir)
  /-- no other page that is a kernel stack is freed -/
  kfrees : ∃ pages, (step k call).kfrees = k.kfrees ++ pages ∧
    (∀ p, InUse k p → ((k.proc p).kstack ∈ pages ↔ collected k call = some p)) ∧
      ∀ p, collected k call = some p → pages = [(k.proc p).kstack]
  ends : ∀ p, collected k call = some p →
    ¬ InUse (step k call) p ∧ ((step k call).proc p).parent = none
  keeps : ∀ p, InUse k p → collected k call ≠ some p → GoesOn k call (step k call) p
  creates : ∀ p, ¬ InUse k p → InUse (step k call) p →
    ((step k call).proc p).parent = some call.cur ∧ ((step k call).proc p).pid = k.nextpid

structure Kept (k : Kernel) : Prop where
  parentless : ∀ p, ¬ InUse k p → (k.proc p).parent = none
  pids : ∀ p q, InUse k p → InUse k q → (k.proc p).pid = (k.proc q).pid → p = q
  small : ∀ p, InUse k p → (k.proc p).pid.toNat < k.nextpid.toNat
  kstacks : ∀ p q, InUse k p → InUse k q → (k.proc p).kstack = (k.proc q).kstack → p = q
  old : ∀ pid ∈ k.returned, pid.toNat < k.nextpid.toNat ∧ ∀ p, InUse k p → (k.proc p).pid ≠ pid
  once : k.returned.Nodup
  bound : k.nextpid.toNat ≤ 2147483648

theorem boot_kept (pgdir kstack : Addr) : Kept (boot pgdir kstack) := by
  have only : ∀ p, InUse (boot pgdir kstack) p → p = 0 := by
    intro p used
    by_contra other
    exact used (by simp [boot, other])
  refine {
    parentless := ?_, pids := ?_, small := ?_, kstacks := ?_, old := by simp [boot]
    once := List.nodup_nil, bound := by simp [boot] }
  · intro p _
    simp only [boot]
    split <;> rfl
  · intro p q first second _
    exact (only p first).trans (only q second).symm
  · intro p used
    rw [only p used]
    exact show (1 : UInt32).toNat < (2 : UInt32).toNat by decide
  · intro p q first second _
    exact (only p first).trans (only q second).symm

section
variable (kept : Kept k)
  (uses : ∀ p, InUse k' p → InUse k p ∧ (k'.proc p).pid = (k.proc p).pid ∧
    (k'.proc p).kstack = (k.proc p).kstack)
  (parentless : ∀ p, ¬ InUse k' p → (k'.proc p).parent = none)
  (grows : k.nextpid.toNat ≤ k'.nextpid.toNat) (bound : k'.nextpid.toNat ≤ 2147483648)
include kept uses parentless grows bound

/-- A call that brings no new process keeps the invariant if what it returns is
not the pid of a process that is left. -/
theorem Kept.shrink (old : ∀ pid ∈ k'.returned, pid ∉ k.returned → pid.toNat < k.nextpid.toNat ∧
      ∀ p, InUse k' p → (k'.proc p).pid ≠ pid) (once : k'.returned.Nodup) : Kept k' := by
  refine { parentless, pids := ?_, small := ?_, kstacks := ?_, old := ?_, once, bound }
  · intro p q first second same
    obtain ⟨first, pid, _⟩ := uses p first
    obtain ⟨second, pid', _⟩ := uses q second
    exact kept.pids p q first second (pid.symm.trans (same.trans pid'))
  · intro p used
    obtain ⟨used, pid, _⟩ := uses p used
    rw [pid]
    exact lt_of_lt_of_le (kept.small p used) grows
  · intro p q first second same
    obtain ⟨first, _, kstack⟩ := uses p first
    obtain ⟨second, _, kstack'⟩ := uses q second
    exact kept.kstacks p q first second (kstack.symm.trans (same.trans kstack'))
  · intro pid returned
    by_cases before : pid ∈ k.returned
    · obtain ⟨small, unused⟩ := kept.old pid before
      refine ⟨lt_of_lt_of_le small grows, ?_⟩
      intro p used
      obtain ⟨used, same, _⟩ := uses p used
      rw [same]
      exact unused p used
    · obtain ⟨small, unused⟩ := old pid returned before
      exact ⟨lt_of_lt_of_le small grows, unused⟩

theorem Kept.silent (returned : k'.returned = k.returned ++ []) : Kept k' := by
  rw [List.append_nil] at returned
  apply kept.shrink uses parentless grows bound
  · intro pid new before
    exact absurd (returned ▸ new) before
  · rw [returned]
    exact kept.once
end

theorem Kept.alike_parentless (kept : Kept k) {p : Slot} (alike : Alike (k.proc p) (k'.proc p))
    (unused : ¬ InUse k' p) : (k'.proc p).parent = none := by
  rw [alike.parent]
  exact kept.parentless p (fun used => unused (alike.inUse_iff.mpr used))

theorem alike_uses {p : Slot} (alike : Alike (k.proc p) (k'.proc p)) (used : InUse k' p) :
    InUse k p ∧ (k'.proc p).pid = (k.proc p).pid ∧ (k'.proc p).kstack = (k.proc p).kstack :=
  ⟨alike.inUse_iff.mp used, alike.pid, alike.kstack⟩

/-- Where all slots but `p` are alike, only `p` can be newly in use. -/
theorem newly_used {p q : Slot} (others : ∀ i, i ≠ p → Alike (k.proc i) (k'.proc i))
    (unused : ¬ InUse k q) (used : InUse k' q) : q = p := by
  by_contra other
  exact unused ((others q other).inUse_iff.mp used)

theorem counted {n m : UInt32} (next : m = n + 1) (left : n.toNat < 2147483648) :
    m.toNat = n.toNat + 1 := by
  rw [next, UInt32.toNat_add]
  simp only [UInt32.reduceToNat]
  omega

theorem Kept.created (kept : Kept k) {p : Slot} (left : k.nextpid.toNat < 2147483648)
    (free : ¬ InUse k p) (alive : InUse k' p) (pid : (k'.proc p).pid = k.nextpid)
    (fresh : ∀ q, InUse k q → (k.proc q).kstack ≠ (k'.proc p).kstack)
    (others : ∀ i, i ≠ p → Alike (k.proc i) (k'.proc i)) (nextpid : k'.nextpid = k.nextpid + 1)
    (returned : k'.returned = k.returned) : Kept k' := by
  have next := counted nextpid left
  -- a process in use is the new one or an old one
  have uses : ∀ q, InUse k' q → q = p ∨ (q ≠ p ∧ InUse k q ∧ (k'.proc q).pid = (k.proc q).pid ∧
        (k'.proc q).kstack = (k.proc q).kstack) := by
    intro q used
    by_cases same : q = p
    · exact Or.inl same
    · exact Or.inr ⟨same, alike_uses (others q same) used⟩
  have newer : ∀ q, InUse k q → (k.proc q).pid ≠ k.nextpid := by
    intro q used same
    have small := kept.small q used
    rw [same] at small
    exact lt_irrefl _ small
  constructor
  · intro q unused
    have other : q ≠ p := fun same => unused (same ▸ alive)
    exact kept.alike_parentless (others q other) unused
  · intro q r first second same
    rcases uses q first with rfl | ⟨_, first, pidq, _⟩ <;>
      rcases uses r second with rfl | ⟨_, second, pidr, _⟩
    · rfl
    · exact absurd (pidr.symm.trans (same.symm.trans pid)) (newer r second)
    · exact absurd (pidq.symm.trans (same.trans pid)) (newer q first)
    · exact kept.pids q r first second (pidq.symm.trans (same.trans pidr))
  · intro q used
    rcases uses q used with rfl | ⟨_, used, pidq, _⟩
    · rw [pid]
      omega
    · rw [pidq]
      have := kept.small q used
      omega
  · intro q r first second same
    rcases uses q first with rfl | ⟨_, first, _, stackq⟩ <;>
      rcases uses r second with rfl | ⟨_, second, _, stackr⟩
    · rfl
    · exact absurd (stackr.symm.trans same.symm) (fresh r second)
    · exact absurd (stackq.symm.trans same) (fresh q first)
    · exact kept.kstacks q r first second (stackq.symm.trans (same.trans stackr))
  · intro old before
    rw [returned] at before
    obtain ⟨small, unused⟩ := kept.old old before
    refine ⟨by omega, ?_⟩
    intro q used
    rcases uses q used with rfl | ⟨_, used, pidq, _⟩
    · rw [pid]
      rintro rfl
      exact lt_irrefl _ small
    · rw [pidq]
      exact unused q used
  · rw [returned]
    exact kept.once
  · omega

theorem Kept.cleared (kept : Kept k) {p : Slot} (used : InUse k p)
    (unused : (k'.proc p).state = .unused) (parent : (k'.proc p).parent = none)
    (others : ∀ i, i ≠ p → Alike (k.proc i) (k'.proc i)) (nextpid : k'.nextpid = k.nextpid)
    (returned : k'.returned = k.returned ++ [(k.proc p).pid]) : Kept k' := by
  have other : ∀ q, InUse k' q → q ≠ p := fun q used same => used (same ▸ unused)
  refine kept.shrink ?_ ?_ (by rw [nextpid]) (by rw [nextpid]; exact kept.bound) ?_ ?_
  · intro q used
    exact alike_uses (others q (other q used)) used
  · intro q unused
    by_cases same : q = p
    · rw [same]
      exact parent
    · exact kept.alike_parentless (others q same) unused
  · intro pid new before
    have here : pid = (k.proc p).pid := by simpa [returned, before] using new
    rw [here]
    refine ⟨kept.small p used, ?_⟩
    intro q used' same
    obtain ⟨usedq, pid, _⟩ := alike_uses (others q (other q used')) used'
    exact other q used' (kept.pids q p usedq used (pid.symm.trans same))
  · rw [returned]
    refine List.nodup_append.mpr ⟨kept.once, List.nodup_singleton _, ?_⟩
    intro old before new here same
    rw [List.mem_singleton.mp here] at same
    exact (kept.old old before).2 p used same.symm

def Fine (k : Kernel) (call : Call) : Prop :=
  CanCall k call ∧ FreshStack k call ∧ PidLeft k call

instance (k : Kernel) (call : Call) : Decidable (Fine k call) :=
  inferInstanceAs (Decidable (_ ∧ _ ∧ _))

theorem Kept.step (kept : Kept k) (fine : Fine k call) : Kept (step k call) := by
  obtain ⟨canCall, fresh, left⟩ := fine
  have caller := CanCall.inUse canCall
  have outcome := step_outcome canCall
  generalize ThreadTable.step k call = k' at outcome
  cases outcome with
  | quiet scratch _ _ alike nextpid appends =>
    exact kept.silent (fun p used => alike_uses (alike p) used)
      (fun p unused => kept.alike_parentless (alike p) unused) (by rw [nextpid])
      (by rw [nextpid]; exact kept.bound) appends.returned
  -- a failed `fork` or `clone` has used up a pid
  | spoiled p scratch pages _ asks _ _ free still parent others nextpid appends =>
    have next := counted nextpid (left asks)
    have room := left asks
    refine kept.silent ?_ ?_ (by omega) (by omega) appends.returned
    · intro q used
      exact alike_uses (others q (fun same => used (same ▸ still))) used
    · intro q unused
      by_cases same : q = p
      · rw [same, parent]
        exact kept.parentless p (fun used => used free)
      · exact kept.alike_parentless (others q same) unused
  | created p dirs _ _ free alive pid parent stack others nextpid appends =>
    refine kept.created (left (by simp [stack.1])) (fun used => used free) ?_ pid ?_ others nextpid
      (by simpa using appends.returned)
    · simp [InUse, alive]
    · exact fresh _ (by simp [stack.1])
  | exited leaves self others parent same nextpid appends =>
    have uses : ∀ q, InUse k' q ↔ InUse k q := by
      intro q
      by_cases leaving : q = call.cur
      · rw [leaving]
        exact ⟨fun _ => caller, fun _ => by simp [InUse, self]⟩
      · exact not_congr (others q leaving).1
    refine kept.silent ?_ ?_ (by rw [nextpid]) (by rw [nextpid]; exact kept.bound) appends.returned
    · intro q used
      exact ⟨(uses q).mp used, (same q).1, (same q).2.2⟩
    · intro q unused
      have none := kept.parentless q (fun used => unused ((uses q).mpr used))
      rw [parent q, none]
      rfl
  | collected p freevms found zombie how cleared others nextpid appends =>
    exact kept.cleared (by simp [InUse, zombie]) cleared.1 cleared.2 others nextpid appends.returned
  | replaced dir isExec self others nextpid appends =>
    have uses : ∀ q, InUse k' q ↔ InUse k q := by
      intro q
      by_cases same : q = call.cur
      · rw [same]
        exact not_congr self.unused
      · exact (others q same).inUse_iff
    refine kept.silent ?_ ?_ (by rw [nextpid]) (by rw [nextpid]; exact kept.bound) appends.returned
    · intro q used
      by_cases same : q = call.cur
      · rw [same]
        exact ⟨caller, self.pid, self.kstack⟩
      · exact alike_uses (others q same) used
    · intro q unused
      have other : q ≠ call.cur := fun same => unused ((uses q).mpr (same ▸ caller))
      exact kept.alike_parentless (others q other) unused

theorem map_heir {cur : Slot} (parent : Option Slot) : parent.map (heir k (.exit cur)) =
    if parent = some cur then some k.initproc else parent := by
  cases parent with
  | none => rfl
  | some q =>
    by_cases same : q = cur
    · simp [heir, same]
    · have other : Call.exit cur ≠ .exit q := fun wrong => same (Call.exit.inj wrong).symm
      simp [heir, same, other]

theorem map_heir_other (other : ∀ q, call ≠ .exit q) (parent : Option Slot) :
    parent.map (heir k call) = parent := by
  have same : heir k call = id := funext fun q => if_neg (other q)
  rw [same, Option.map_id_fun, id]

theorem parent_alike {p : Slot} (alike : Alike (k.proc p) ((ThreadTable.step k call).proc p)) :
    ((ThreadTable.step k call).proc p).parent = (k.proc p).parent.map (heir k call) := by
  have stays : (∀ q, call ≠ .exit q) →
      ((ThreadTable.step k call).proc p).parent = (k.proc p).parent.map (heir k call) := by
    intro other
    rw [alike.parent, map_heir_other other]
  cases call with
  | exit cur => exact (exit_kept k cur p).2.1.trans (map_heir _).symm
  | _ => exact stays fun _ wrong => by cases wrong

theorem goesOn_alike {p : Slot} (alike : Alike (k.proc p) ((ThreadTable.step k call).proc p))
    (used : InUse k p) : GoesOn k call (ThreadTable.step k call) p :=
  ⟨alike.inUse_iff.mpr used, alike.pid, alike.kstack, parent_alike alike⟩

theorem collected_none (nobody : leaver k call = none) : collected k call = none := by
  cases call with
  | exec cur build sz sp => rfl
  | _ => exact nobody

theorem CollectsRightly.nobody {pages : List Addr} (nobody : collected k call = none)
    (returned : (ThreadTable.step k call).returned = k.returned ++ [])
    (kfrees : (ThreadTable.step k call).kfrees = k.kfrees ++ pages)
    (safe : ∀ p, InUse k p → (k.proc p).kstack ∉ pages)
    (keeps : ∀ p, InUse k p → GoesOn k call (ThreadTable.step k call) p)
    (creates : ∀ p, ¬ InUse k p → InUse (ThreadTable.step k call) p →
      ((ThreadTable.step k call).proc p).parent = some call.cur ∧
        ((ThreadTable.step k call).proc p).pid = k.nextpid) : CollectsRightly k call := by
  have nothing : ∀ p, collected k call ≠ some p := by
    intro p found
    rw [nobody] at found
    cases found
  exact ⟨by rw [returned, nobody]; rfl, fun p found => absurd found (nothing p),
    fun p found => absurd found (nothing p),
    ⟨pages, kfrees, fun p used => ⟨fun freed => absurd freed (safe p used),
      fun found => absurd found (nothing p)⟩, fun p found => absurd found (nothing p)⟩,
    fun p found => absurd found (nothing p), fun p used _ => keeps p used, creates⟩

theorem Kept.collects_child (kept : Kept k) {p : Slot} (found : collected k call = some p)
    (zombie : (k.proc p).state = .zombie) (how : (call = .wait call.cur ∧ WaitsFor k call.cur p) ∨
      (call = .join call.cur ∧ JoinsWith k call.cur p))
    (unused : ((ThreadTable.step k call).proc p).state = .unused)
    (parent : ((ThreadTable.step k call).proc p).parent = none)
    (others : ∀ i, i ≠ p → Alike (k.proc i) ((ThreadTable.step k call).proc i))
    (kfrees : (ThreadTable.step k call).kfrees = k.kfrees ++ [(k.proc p).kstack])
    (returned : (ThreadTable.step k call).returned = k.returned ++ [(k.proc p).pid]) :
    CollectsRightly k call := by
  have used : InUse k p := by simp [InUse, zombie]
  have only : ∀ q, collected k call = some q → q = p := by
    intro q asked
    exact Option.some.inj (asked.symm.trans found)
  refine ⟨by rw [returned, found]; rfl, ?_, ?_, ⟨_, kfrees, ?_, ?_⟩, ?_, ?_, ?_⟩
  · intro q asked
    rw [only q asked]
    rcases how with ⟨_, waits⟩ | ⟨_, joins⟩
    · exact ⟨zombie, waits.1⟩
    · exact ⟨zombie, joins.1⟩
  · intro q asked
    rw [only q asked]
    rcases how with ⟨isWait, waits⟩ | ⟨isJoin, joins⟩
    · exact Or.inl ⟨isWait, waits.2⟩
    · exact Or.inr ⟨isJoin, joins.2⟩
  · intro q usedq
    rw [List.mem_singleton, found, Option.some.injEq]
    exact ⟨fun same => (kept.kstacks q p usedq used same).symm, fun same => by rw [same]⟩
  · intro q asked
    rw [only q asked]
  · intro q asked
    rw [only q asked]
    exact ⟨fun used => used unused, parent⟩
  · intro q usedq missed
    exact goesOn_alike (others q (fun same => missed (same ▸ found))) usedq
  · intro q unusedq usedq
    exact absurd unused (newly_used others unusedq usedq ▸ usedq)

theorem Kept.collects (kept : Kept k) (fine : Fine k call) : CollectsRightly k call := by
  obtain ⟨canCall, fresh, _⟩ := fine
  have caller := CanCall.inUse canCall
  have outcome := step_outcome canCall
  cases outcome with
  | quiet scratch _ nobody alike _ appends =>
    exact .nobody (collected_none nobody) appends.returned appends.kfrees (fun _ _ => List.not_mem_nil)
      (fun p used => goesOn_alike (alike p) used)
      (fun p unused used => absurd ((alike p).inUse_iff.mp used) unused)
  | spoiled p scratch pages _ asks given nobody free still _ others _ appends =>
    refine .nobody (collected_none nobody) appends.returned appends.kfrees ?_ ?_ ?_
    · intro q used freed
      rcases given with none | page
      · simp [none] at freed
      · exact fresh _ (page ▸ freed) q used rfl
    · intro q used
      exact goesOn_alike (others q (fun same => used (same ▸ free))) used
    · intro q unused used
      exact absurd still (newly_used others unused used ▸ used)
  | created p dirs _ nobody free alive pid parent _ others _ appends =>
    refine .nobody (collected_none nobody) appends.returned appends.kfrees
      (fun _ _ => List.not_mem_nil) ?_ ?_
    · intro q used
      exact goesOn_alike (others q (fun same => used (same ▸ free))) used
    · intro q unused used
      rw [newly_used others unused used]
      exact ⟨parent, pid⟩
  | exited leaves self others parent same _ appends =>
    have nobody : collected k call = none := by rw [leaves]; rfl
    refine .nobody nobody appends.returned appends.kfrees (fun _ _ => List.not_mem_nil) ?_ ?_
    · intro q used
      refine ⟨?_, (same q).1, (same q).2.2, ?_⟩
      · by_cases leaving : q = call.cur
        · simp [InUse, leaving, self]
        · exact (not_congr (others q leaving).1).mpr used
      · rw [parent q, leaves]
        exact (map_heir _).symm
    · intro q unused used
      have other : q ≠ call.cur := fun same => unused (same ▸ caller)
      exact absurd ((not_congr (others q other).1).mp used) unused
  | collected p freevms found zombie how cleared others _ appends =>
    refine kept.collects_child found zombie ?_ cleared.1 cleared.2 others appends.kfrees
      appends.returned
    rcases how with ⟨isWait, waits, _⟩ | ⟨isJoin, joins, _⟩
    · exact Or.inl ⟨isWait, waits⟩
    · exact Or.inr ⟨isJoin, joins⟩
  | replaced dir isExec self others _ appends =>
    have nobody : collected k call = none := by
      obtain ⟨_, _, exec⟩ := isExec
      rw [exec]
      rfl
    refine .nobody nobody appends.returned appends.kfrees (fun _ _ => List.not_mem_nil) ?_ ?_
    · intro q used
      by_cases same : q = call.cur
      · rw [same]
        refine ⟨(not_congr self.unused).mpr caller, self.pid, self.kstack, ?_⟩
        rw [self.parent, map_heir_other]
        obtain ⟨_, _, exec⟩ := isExec
        intro q wrong
        rw [exec] at wrong
        cases wrong
      · exact goesOn_alike (others q same) used
    · intro q unused used
      exact absurd caller (newly_used others unused used ▸ unused)

structure Births where
  creator : UInt32 → Option UInt32
  exits : List UInt32

def born (k : Kernel) (call : Call) : Option Slot :=
  (List.finRange 64).find? fun p => decide (¬ InUse k p ∧ InUse (ThreadTable.step k call) p)

def Births.record (k : Kernel) (call : Call) (births : Births) : Births where
  creator := match born k call with
    | some p => Function.update births.creator ((ThreadTable.step k call).proc p).pid
        (some (k.proc call.cur).pid)
    | none => births.creator
  exits := if call = .exit call.cur then (k.proc call.cur).pid :: births.exits else births.exits

def DescendsFrom (k : Kernel) (births : Births) (pid : UInt32) (q : Slot) : Prop :=
  births.creator pid = some (k.proc q).pid ∨
    (q = k.initproc ∧ ∃ creator ∈ births.exits, births.creator pid = some creator)

def Alive (k : Kernel) (p : Slot) : Prop := InUse k p ∧ (k.proc p).state ≠ .zombie

structure Descent (k : Kernel) (births : Births) : Prop where
  init : Alive k k.initproc
  alive : ∀ p q, InUse k p → (k.proc p).parent = some q → Alive k q
  creator : ∀ p q, InUse k p → (k.proc p).parent = some q → DescendsFrom k births (k.proc p).pid q

variable {births births' : Births}

theorem Alive.alike {q : Slot} (alive : Alive k q) (alike : Alike (k.proc q) (k'.proc q)) :
    Alive k' q ∧ (k'.proc q).pid = (k.proc q).pid :=
  ⟨⟨alike.inUse_iff.mpr alive.1, fun zombie => alive.2 (alike.zombie.mp zombie)⟩, alike.pid⟩

theorem boot_descent (pgdir kstack : Addr) : Descent (boot pgdir kstack) ⟨fun _ => none, []⟩ := by
  have orphans : ∀ p, ((boot pgdir kstack).proc p).parent = none := by
    intro p
    simp only [boot]
    split <;> rfl
  constructor
  case init => exact ⟨by simp [InUse, boot], by simp [boot]⟩
  case alive =>
    intro p q _ parent
    rw [orphans] at parent
    cases parent
  case creator =>
    intro p q _ parent
    rw [orphans] at parent
    cases parent

/-- A call that neither creates nor ends a process. -/
theorem Descent.keep (descent : Descent k births) (same : k'.initproc = k.initproc)
    (uses : ∀ p, InUse k' p → InUse k p ∧ (k'.proc p).pid = (k.proc p).pid ∧
      (k'.proc p).parent = (k.proc p).parent)
    (lives : ∀ q, Alive k q → Alive k' q ∧ (k'.proc q).pid = (k.proc q).pid)
    (creators : births'.creator = births.creator)
    (exits : ∀ pid ∈ births.exits, pid ∈ births'.exits) : Descent k' births' := by
  constructor
  case init =>
    rw [same]
    exact (lives _ descent.init).1
  case alive =>
    intro p q used parent
    obtain ⟨used, _, before⟩ := uses p used
    exact (lives q (descent.alive p q used (before ▸ parent))).1
  case creator =>
    intro p q used parent
    obtain ⟨used, pid, before⟩ := uses p used
    rw [before] at parent
    have child := descent.creator p q used parent
    rw [DescendsFrom, creators, pid, same, (lives q (descent.alive p q used parent)).2]
    refine child.imp_right fun ⟨init, creator, left, made⟩ => ⟨init, creator, exits _ left, made⟩

theorem record_exits (pid : UInt32) (left : pid ∈ births.exits) :
    pid ∈ (births.record k call).exits := by
  change pid ∈ if call = .exit call.cur then (k.proc call.cur).pid :: births.exits else births.exits
  split
  · exact List.mem_cons_of_mem _ left
  · exact left

theorem born_none (old : ∀ p, InUse (ThreadTable.step k call) p → InUse k p) :
    (births.record k call).creator = births.creator := by
  have nobody : born k call = none := by
    refine List.find?_eq_none.mpr fun p _ new => ?_
    obtain ⟨unused, used⟩ := of_decide_eq_true new
    exact unused (old p used)
  simp only [Births.record, nobody]

theorem born_some {p : Slot} (unused : ¬ InUse k p) (used : InUse (ThreadTable.step k call) p)
    (others : ∀ i, i ≠ p → Alike (k.proc i) ((ThreadTable.step k call).proc i)) :
    (births.record k call).creator = Function.update births.creator
      ((ThreadTable.step k call).proc p).pid (some (k.proc call.cur).pid) := by
  have here : born k call = some p := by
    cases found : born k call with
    | none =>
      have missed := List.find?_eq_none.mp found p (List.mem_finRange p)
      exact absurd (decide_eq_true ⟨unused, used⟩) missed
    | some q =>
      unfold born at found
      have new : ¬ InUse k q ∧ InUse (ThreadTable.step k call) q := by
        simpa using List.find?_some found
      rw [newly_used others new.1 new.2]
  simp only [Births.record, here]

theorem Descent.created (descent : Descent k births) (kept : Kept k) {p : Slot}
    (caller : Alive k call.cur) (free : ¬ InUse k p) (used : InUse (ThreadTable.step k call) p)
    (pid : ((ThreadTable.step k call).proc p).pid = k.nextpid)
    (parent : ((ThreadTable.step k call).proc p).parent = some call.cur)
    (others : ∀ i, i ≠ p → Alike (k.proc i) ((ThreadTable.step k call).proc i))
    (same : (ThreadTable.step k call).initproc = k.initproc) :
    Descent (ThreadTable.step k call) (births.record k call) := by
  have lives : ∀ q, Alive k q → Alive (ThreadTable.step k call) q ∧
      ((ThreadTable.step k call).proc q).pid = (k.proc q).pid := fun q alive =>
    alive.alike (others q fun here => free (here ▸ alive.1))
  have creators := @born_some k call births p free used others
  constructor
  case init =>
    rw [same]
    exact (lives _ descent.init).1
  case alive =>
    intro r q usedr child
    by_cases new : r = p
    · rw [new, parent] at child
      cases child
      exact (lives _ caller).1
    · rw [(others r new).parent] at child
      exact (lives q (descent.alive r q ((others r new).inUse_iff.mp usedr) child)).1
  case creator =>
    intro r q usedr child
    by_cases new : r = p
    · rw [new, parent] at child
      cases child
      left
      rw [new, creators, Function.update_self, (lives _ caller).2]
    · have alike := others r new
      have usedr := alike.inUse_iff.mp usedr
      rw [alike.parent] at child
      -- an older pid is not the one that was handed out
      have older : (k.proc r).pid ≠ ((ThreadTable.step k call).proc p).pid := by
        intro clash
        have small := kept.small r usedr
        rw [clash, pid] at small
        exact lt_irrefl _ small
      have before := descent.creator r q usedr child
      rw [DescendsFrom, creators, alike.pid, same, Function.update_of_ne older,
        (lives q (descent.alive r q usedr child)).2]
      exact before.imp_right fun ⟨init, creator, left, made⟩ =>
        ⟨init, creator, record_exits _ left, made⟩

theorem Descent.exited (descent : Descent k births) (leaves : call = .exit call.cur)
    (stays : call ≠ .exit k.initproc) (others : ∀ i, i ≠ call.cur →
      (((ThreadTable.step k call).proc i).state = .unused ↔ (k.proc i).state = .unused) ∧
        (((ThreadTable.step k call).proc i).state = .zombie ↔ (k.proc i).state = .zombie))
    (uses : ∀ i, InUse (ThreadTable.step k call) i → InUse k i)
    (parent : ∀ i, ((ThreadTable.step k call).proc i).parent =
      if (k.proc i).parent = some call.cur then some k.initproc else (k.proc i).parent)
    (pids : ∀ i, ((ThreadTable.step k call).proc i).pid = (k.proc i).pid)
    (same : (ThreadTable.step k call).initproc = k.initproc) :
    Descent (ThreadTable.step k call) (births.record k call) := by
  have lives : ∀ q, q ≠ call.cur → Alive k q → Alive (ThreadTable.step k call) q := by
    intro q other alive
    exact ⟨(not_congr (others q other).1).mpr alive.1, fun zombie =>
      alive.2 ((others q other).2.mp zombie)⟩
  have init : k.initproc ≠ call.cur := by
    intro here
    exact stays (here ▸ leaves)
  have left : (k.proc call.cur).pid ∈ (births.record k call).exits := by
    change _ ∈ if call = .exit call.cur then (k.proc call.cur).pid :: births.exits else births.exits
    rw [if_pos leaves]
    exact List.mem_cons_self
  have creators := @born_none k call births uses
  constructor
  case init =>
    rw [same]
    exact lives _ init descent.init
  case alive =>
    intro p q used child
    rw [parent p] at child
    split at child
    · cases child
      exact lives _ init descent.init
    · rename_i elsewhere
      refine lives q (fun here => elsewhere (here ▸ child)) ?_
      exact descent.alive p q (uses p used) child
  case creator =>
    intro p q used child
    have used := uses p used
    rw [DescendsFrom, creators, pids p, pids q, same]
    rw [parent p] at child
    split at child
    · rename_i mine
      cases child
      right
      -- the caller is not init, so it is the creator
      rcases descent.creator p _ used mine with made | ⟨wrong, _⟩
      · exact ⟨rfl, _, left, made⟩
      · exact absurd wrong.symm init
    · exact (descent.creator p q used child).imp_right fun ⟨init, creator, gone, made⟩ =>
        ⟨init, creator, record_exits _ gone, made⟩

/-- A call after which one entry is unused and the others are as they were. -/
theorem Descent.without (descent : Descent k births) {p : Slot}
    (same : (ThreadTable.step k call).initproc = k.initproc) (dead : ¬ Alive k p)
    (gone : ¬ InUse (ThreadTable.step k call) p)
    (others : ∀ q, q ≠ p → Alike (k.proc q) ((ThreadTable.step k call).proc q)) :
    Descent (ThreadTable.step k call) (births.record k call) := by
  have before := fun q used => others q fun here => gone (here ▸ used)
  refine descent.keep same (fun q used => ?_) (fun q alive => ?_)
    (born_none fun q used => (before q used).inUse_iff.mp used) record_exits
  · have alike := before q used
    exact ⟨alike.inUse_iff.mp used, alike.pid, alike.parent⟩
  · exact alive.alike (others q fun here => dead (here ▸ alive))

theorem CanCall.alive (canCall : CanCall k call) : Alive k call.cur := by
  rcases canCall.1 with runs | runs <;> exact ⟨by simp [InUse, runs], by simp [runs]⟩

theorem Descent.step (descent : Descent k births) (kept : Kept k) (fine : Fine k call) :
    Descent (ThreadTable.step k call) (births.record k call) := by
  obtain ⟨canCall, _, _⟩ := fine
  have caller := CanCall.alive canCall
  have outcome := step_outcome canCall
  cases outcome with
  | quiet scratch _ _ alike _ appends =>
    refine descent.keep appends.initproc ?_ (fun q alive => alive.alike (alike q))
      (born_none fun p used => (alike p).inUse_iff.mp used) record_exits
    intro p used
    exact ⟨(alike p).inUse_iff.mp used, (alike p).pid, (alike p).parent⟩
  | spoiled p scratch pages _ _ _ _ free still _ others _ appends =>
    exact descent.without appends.initproc (fun alive => alive.1 free) (fun used => used still) others
  | created p dirs _ _ free alive pid parent _ others _ appends =>
    exact descent.created kept caller (fun used => used free) (by simp [InUse, alive]) pid parent
      others appends.initproc
  | exited leaves self others parent same _ appends =>
    refine descent.exited leaves canCall.2 others ?_ parent (fun i => (same i).1) appends.initproc
    intro i used
    by_cases here : i = call.cur
    · rw [here]
      exact caller.1
    · exact (not_congr (others i here).1).mp used
  | collected p freevms found zombie how cleared others _ appends =>
    -- a process that is collected has exited, so it is nobody's parent
    exact descent.without appends.initproc (fun alive => alive.2 zombie)
      (fun used => used cleared.1) others
  | replaced dir isExec self others _ appends =>
    have uses : ∀ q, InUse (ThreadTable.step k call) q → InUse k q ∧
        ((ThreadTable.step k call).proc q).pid = (k.proc q).pid ∧
        ((ThreadTable.step k call).proc q).parent = (k.proc q).parent := by
      intro q used
      by_cases here : q = call.cur
      · rw [here]
        exact ⟨caller.1, self.pid, self.parent⟩
      · exact ⟨(others q here).inUse_iff.mp used, (others q here).pid, (others q here).parent⟩
    refine descent.keep appends.initproc uses ?_ (born_none fun q used => (uses q used).1)
      record_exits
    intro q alive
    by_cases here : q = call.cur
    · rw [here]
      exact ⟨⟨(not_congr self.unused).mpr caller.1, fun zombie =>
        caller.2 (self.zombie.mp zombie)⟩, self.pid⟩
    · exact alive.alike (others q here)

def history (pgdir kstack : Addr) (calls : List Call) : Kernel × Births :=
  run (recorded ThreadTable.step Births.record) (boot pgdir kstack, ⟨fun _ => none, []⟩) calls

theorem history_kept (pgdir kstack : Addr) {calls : List Call}
    (all : Allowed ThreadTable.step Fine (boot pgdir kstack) calls) :
    Kept (history pgdir kstack calls).1 ∧
      Descent (history pgdir kstack calls).1 (history pgdir kstack calls).2 :=
  invariant (fun state : Kernel × Births => Kept state.1 ∧ Descent state.1 state.2)
    ⟨boot_kept pgdir kstack, boot_descent pgdir kstack⟩
    (fun _ _ both fine => ⟨both.1.step fine, both.2.step both.1 fine⟩) (allowed_recorded.mpr all)

/-- In every run no pid is returned twice, a slot that is not in use has no
parent, and every call collects the child it should and frees its kernel stack,
and no other; the child was created by the caller, or the caller is init and the
creator has exited. -/
theorem exited_children_are_collected_once (pgdir kstack : Addr) {calls : List Call}
    (all : Allowed ThreadTable.step Fine (boot pgdir kstack) calls) :
    let k := run ThreadTable.step (boot pgdir kstack) calls
    k.returned.Nodup ∧ (∀ p, ¬ InUse k p → (k.proc p).parent = none) ∧
      ∀ call, Fine k call → CollectsRightly k call ∧ ∀ p, collected k call = some p →
        DescendsFrom k (history pgdir kstack calls).2 (k.proc p).pid call.cur := by
  intro k
  have both := history_kept pgdir kstack all
  have same : (history pgdir kstack calls).1 = k := run_recorded _ _ _
  rw [same] at both
  obtain ⟨kept, descent⟩ := both
  refine ⟨kept.once, kept.parentless, fun call fine => ?_⟩
  have collects := kept.collects fine
  refine ⟨collects, fun p found => ?_⟩
  obtain ⟨zombie, child⟩ := collects.child p found
  exact descent.creator p _ (by simp [InUse, zombie]) child

/-- A process starts a thread and collects it, forks, exits and is collected by init;
its child exits as an orphan. -/
def family : List Call :=
  [.fork 0 2 (.built 8), .clone 1 0 3, .exit 2, .join 1, .fork 1 5 (.built 9), .exit 1, .exit 2,
    .wait 0]

def grown : Kernel := run ThreadTable.step (boot 4 1) family

theorem family_is_collected_once :
    grown.returned = [3, 2] ∧ grown.returned.Nodup ∧ collected grown (.wait 0) = some 2 ∧
      DescendsFrom grown (history 4 1 family).2 (grown.proc 2).pid 0 := by
  have all : Allowed ThreadTable.step Fine (boot 4 1) family := by decide +kernel
  have once := exited_children_are_collected_once 4 1 all
  rw [← grown] at once
  have found : collected grown (.wait 0) = some 2 := by decide +kernel
  exact ⟨by decide +kernel, once.1, found, (once.2.2 (.wait 0) (by decide +kernel)).2 2 found⟩

end OsProjects.Collection
