import OsProjects.ThreadOutcomes

/-!
Who frees a page directory. `wait` counts the other slots that have the directory
of the process it collects, used or not, and calls `freevm` once for each of
them, where it should call it once if no process has it any more; `exec` frees
the old directory of its caller whoever shares it. A run frees its directories
rightly exactly if these two happen to meet a state in which that is the same.
-/

namespace OsProjects.AddressSpaces

open Runs ThreadTable ThreadOutcomes List

variable {k k' : Kernel} {call : Call} {p : Slot}

def LastUser (k : Kernel) (p : Slot) : Prop :=
  ∀ q, q ≠ p → InUse k q → (k.proc q).pgdir ≠ (k.proc p).pgdir

/-- A call frees no directory that was freed before, none that another process
has, and the one that it takes from its last user. -/
structure FreesRightly (k : Kernel) (call : Call) : Prop where
  once : (step k call).freevms.Nodup
  frees : ∃ frees, (step k call).freevms = k.freevms ++ frees ∧
    (∀ pgdir ∈ frees, ∀ q, InUse k q → (k.proc q).pgdir = pgdir → leaver k call = some q) ∧
      ∀ q, leaver k call = some q → LastUser k q → (k.proc q).pgdir ∈ frees

def Separate (k : Kernel) (call : Call) : Prop :=
  ∀ p, leaver k call = some p →
    match call with
    | .wait _ => LastUser k p ∧ sharers k p = 1
    | .exec _ _ _ _ => LastUser k p
    | _ => True

def Possible (k : Kernel) (call : Call) : Prop := CanCall k call ∧ FreshDir k call

instance (k : Kernel) (p : Slot) : Decidable (LastUser k p) :=
  Nat.decidableForallFin fun q => q ≠ p → InUse k q → (k.proc q).pgdir ≠ (k.proc p).pgdir

instance (k : Kernel) (call : Call) : Decidable (Possible k call) :=
  inferInstanceAs (Decidable (_ ∧ _))

structure Owned (k : Kernel) : Prop where
  handed : ∀ p, InUse k p → (k.proc p).pgdir ∈ k.dirs
  live : ∀ p, InUse k p → (k.proc p).pgdir ∉ k.freevms
  known : ∀ pgdir ∈ k.freevms, pgdir ∈ k.dirs
  once : k.freevms.Nodup

theorem boot_owned (pgdir kstack : Addr) : Owned (boot pgdir kstack) := by
  refine ⟨?_, ?_, ?_, nodup_nil⟩
  · intro p used
    by_cases first : p = 0
    · simp [boot, first]
    · exact absurd (by simp [boot, first]) used
  · intro p _
    simp [boot]
  · intro pgdir freed
    simp [boot] at freed

/-- A new directory belongs to no process and was not freed. -/
theorem Owned.fresh (owned : Owned k) (fresh : FreshDir k call) {pgdir : Addr}
    (given : pgdir ∈ call.dirs) :
    (∀ p, InUse k p → (k.proc p).pgdir ≠ pgdir) ∧ pgdir ∉ k.freevms := by
  have new := (fresh pgdir given).2
  exact ⟨fun p used same => new (same ▸ owned.handed p used),
    fun freed => new (owned.known pgdir freed)⟩

theorem Scratch.mem {scratch : List Addr} (given : Scratch call scratch) {pgdir : Addr}
    (member : pgdir ∈ scratch) : pgdir ∈ call.dirs := by
  rcases given with rfl | rfl
  · cases member
  · exact member

theorem dirs_nodup (call : Call) : call.dirs.Nodup := by
  have build : ∀ build : Build, build.dirs.Nodup := by
    intro build
    cases build with
    | built pgdir => exact nodup_singleton _
    | failed scratch => cases scratch <;> simp [Build.dirs]
  cases call with
  | fork cur stack copy => exact build copy
  | exec cur made sz sp => exact build made
  | _ => exact nodup_nil

theorem Scratch.nodup {scratch : List Addr} (given : Scratch call scratch) : scratch.Nodup := by
  rcases given with rfl | rfl
  · exact nodup_nil
  · exact dirs_nodup call

/-- A call that takes nobody from an address space frees what it could not fill. -/
theorem Owned.scratch_right (owned : Owned k) (fresh : FreshDir k call) {scratch : List Addr}
    (given : Scratch call scratch) (freevms : (step k call).freevms = k.freevms ++ scratch)
    (nobody : leaver k call = none) : FreesRightly k call := by
  refine ⟨?_, scratch, freevms, ?_, ?_⟩
  · rw [freevms]
    refine nodup_append.mpr ⟨owned.once, Scratch.nodup given, ?_⟩
    rintro old before new here rfl
    exact (owned.fresh fresh (Scratch.mem given here)).2 before
  · intro pgdir here q used same
    exact absurd same ((owned.fresh fresh (Scratch.mem given here)).1 q used)
  · intro q left
    rw [nobody] at left
    cases left

theorem nobody_leaves (nobody : leaver k call = none) (q : Slot) : leaver k call ≠ some q := by
  rw [nobody]
  simp

/-- Whom a call collects, it takes from the address space. -/
theorem leaver_of_collected (found : collected k call = some p)
    (how : call = .wait call.cur ∨ call = .join call.cur) : leaver k call = some p := by
  rcases how with isWait | isJoin
  · rw [isWait] at found ⊢
    exact found
  · rw [isJoin] at found ⊢
    exact found

theorem separate_of_nobody (nobody : leaver k call = none) : Separate k call := by
  intro p left
  rw [nobody] at left
  cases left

theorem sharers_pos {q : Slot} (other : q ≠ p) (same : (k.proc q).pgdir = (k.proc p).pgdir) :
    0 < sharers k p := by
  unfold sharers
  rw [countP_pos_iff]
  exact ⟨q, mem_finRange q, by simp [other, same]⟩

/-- To free the directory of the last process that had it is right. -/
theorem Owned.last_right (owned : Owned k) (used : InUse k p) (left : leaver k call = some p)
    (freevms : (step k call).freevms = k.freevms ++ [(k.proc p).pgdir])
    (lastUser : LastUser k p) : FreesRightly k call := by
  refine ⟨?_, _, freevms, ?_, ?_⟩
  · rw [freevms]
    refine nodup_append.mpr ⟨owned.once, nodup_singleton _, ?_⟩
    rintro old before new here rfl
    exact owned.live p used (mem_singleton.mp here ▸ before)
  · intro pgdir here q inUse same
    by_cases other : q = p
    · rw [other]
      exact left
    · exact absurd (same.trans (mem_singleton.mp here)) (lastUser q other inUse)
  · intro q asked _
    cases Option.some.inj (asked.symm.trans left)
    exact mem_singleton_self _

theorem Owned.wait_right_iff (owned : Owned k) (used : InUse k p) (left : leaver k call = some p)
    (freevms : (step k call).freevms = k.freevms ++ replicate (sharers k p) (k.proc p).pgdir) :
    FreesRightly k call ↔ LastUser k p ∧ sharers k p = 1 := by
  constructor
  · rintro ⟨once, frees, same, alone, last⟩
    have here : frees = replicate (sharers k p) (k.proc p).pgdir :=
      append_cancel_left (same.symm.trans freevms)
    subst here
    have lastUser : LastUser k p := by
      intro q other inUse shares
      have freed : (k.proc p).pgdir ∈ replicate (sharers k p) (k.proc p).pgdir :=
        mem_replicate.mpr ⟨(sharers_pos other shares).ne', rfl⟩
      exact other (Option.some.inj ((alone _ freed q inUse shares).symm.trans left))
    have some := (mem_replicate.mp (last p left lastUser)).1
    have one : sharers k p ≤ 1 := by
      rw [freevms] at once
      exact nodup_replicate.mp (List.Nodup.of_append_right once)
    exact ⟨lastUser, by omega⟩
  · rintro ⟨lastUser, one⟩
    rw [one, replicate_one] at freevms
    exact owned.last_right used left freevms lastUser

/-- `join` frees nothing, and its caller still has the directory. -/
theorem join_right {cur : Slot} (owned : Owned k) (caller : InUse k cur) (other : cur ≠ p)
    (joins : JoinsWith k cur p) (left : leaver k call = some p)
    (freevms : (step k call).freevms = k.freevms ++ []) : FreesRightly k call := by
  refine ⟨?_, [], freevms, ?_, ?_⟩
  · rw [freevms, append_nil]
    exact owned.once
  · intro pgdir here
    cases here
  · intro q asked last
    cases Option.some.inj (asked.symm.trans left)
    exact absurd joins.2.symm (last cur other caller)

/-- What `exec` frees is right exactly if nobody else has it. -/
theorem Owned.exec_right_iff (owned : Owned k) (used : InUse k p) (left : leaver k call = some p)
    (freevms : (step k call).freevms = k.freevms ++ [(k.proc p).pgdir]) :
    FreesRightly k call ↔ LastUser k p := by
  constructor
  · rintro ⟨_, frees, same, alone, _⟩ q other inUse shares
    have here : frees = [(k.proc p).pgdir] := append_cancel_left (same.symm.trans freevms)
    subst here
    have leaves := alone _ (mem_singleton_self _) q inUse shares
    exact other (Option.some.inj (leaves.symm.trans left))
  · exact owned.last_right used left freevms

theorem separate_wait {cur : Slot} (left : leaver k (.wait cur) = some p) :
    Separate k (.wait cur) ↔ LastUser k p ∧ sharers k p = 1 := by
  constructor
  · intro separate
    exact separate p left
  · rintro alone q asked
    cases Option.some.inj (asked.symm.trans left)
    exact alone

theorem separate_exec {cur : Slot} {build : Build} {sz sp : UInt32}
    (left : leaver k (.exec cur build sz sp) = some p) :
    Separate k (.exec cur build sz sp) ↔ LastUser k p := by
  constructor
  · intro separate
    exact separate p left
  · rintro alone q asked
    cases Option.some.inj (asked.symm.trans left)
    exact alone

theorem Owned.right_iff (owned : Owned k) (possible : Possible k call) :
    FreesRightly k call ↔ Separate k call := by
  obtain ⟨canCall, fresh⟩ := possible
  have caller := CanCall.inUse canCall
  have outcome := step_outcome canCall
  cases outcome with
  | quiet scratch given nobody _ _ appends
  | spoiled p scratch pages given _ _ nobody _ _ _ _ _ appends =>
    exact iff_of_true (owned.scratch_right fresh given appends.freevms nobody)
      (separate_of_nobody nobody)
  | created p dirs _ nobody _ _ _ _ _ _ _ appends =>
    exact iff_of_true (owned.scratch_right fresh (Or.inl rfl) appends.freevms nobody)
      (separate_of_nobody nobody)
  | exited leaves _ _ _ _ _ appends =>
    have nobody : leaver k call = none := by rw [leaves]; rfl
    exact iff_of_true (owned.scratch_right fresh (Or.inl rfl) appends.freevms nobody)
      (separate_of_nobody nobody)
  | collected p freevms found zombie how _ _ _ appends =>
    have used : InUse k p := by simp [InUse, zombie]
    have left := leaver_of_collected found (how.imp (·.1) (·.1))
    rcases how with ⟨isWait, _, rfl⟩ | ⟨isJoin, joins, rfl⟩
    · rw [owned.wait_right_iff used left appends.freevms]
      rw [isWait] at left ⊢
      exact (separate_wait left).symm
    · have other : call.cur ≠ p := by
        rintro rfl
        rcases canCall.1 with runs | runs <;> simp [zombie] at runs
      refine iff_of_true (join_right owned caller other joins left appends.freevms) ?_
      rw [isJoin]
      exact fun _ _ => trivial
  | replaced _ isExec _ _ _ appends =>
    obtain ⟨sz, sp, exec⟩ := isExec
    have left : leaver k call = some call.cur := by rw [exec]; rfl
    rw [owned.exec_right_iff caller left appends.freevms]
    rw [exec] at left ⊢
    exact (separate_exec left).symm

/-- The invariant after a call that frees rightly: a process has a directory that
a process had that did not leave it, or a new one. -/
theorem Owned.next (owned : Owned k) (fresh : FreshDir k call) (right : FreesRightly k call)
    {new frees : List Addr} {kfrees : List Addr} {returned : List UInt32}
    (appends : Appends k (step k call) new frees kfrees returned)
    (known : ∀ pgdir ∈ frees, pgdir ∈ k.dirs ∨ pgdir ∈ new) (uses : ∀ p, InUse (step k call) p →
      (∃ q, InUse k q ∧ leaver k call ≠ some q ∧ ((step k call).proc p).pgdir = (k.proc q).pgdir) ∨
        (((step k call).proc p).pgdir ∈ call.dirs ∧ ((step k call).proc p).pgdir ∈ new ∧
          ((step k call).proc p).pgdir ∉ frees)) : Owned (step k call) := by
  obtain ⟨once, frees', freevms, alone, _⟩ := right
  have same : frees' = frees := append_cancel_left (freevms.symm.trans appends.freevms)
  subst same
  refine ⟨?_, ?_, ?_, once⟩
  · intro p used
    rw [appends.dirs, mem_append]
    rcases uses p used with ⟨q, usedq, _, pgdir⟩ | ⟨_, new, _⟩
    · rw [pgdir]
      exact Or.inl (owned.handed q usedq)
    · exact Or.inr new
  · intro p used freed
    rw [appends.freevms, mem_append] at freed
    rcases uses p used with ⟨q, usedq, stays, pgdir⟩ | ⟨given, _, kept⟩
    · rw [pgdir] at freed
      rcases freed with before | now
      · exact owned.live q usedq before
      · exact stays (alone _ now q usedq rfl)
    · rcases freed with before | now
      · exact (owned.fresh fresh given).2 before
      · exact kept now
  · intro pgdir freed
    rw [appends.freevms, mem_append] at freed
    rw [appends.dirs, mem_append]
    rcases freed with before | now
    · exact Or.inl (owned.known pgdir before)
    · exact known pgdir now

/-- A process that a call does not touch stays in its address space. -/
theorem stays_alike (alike : Alike (k.proc p) (k'.proc p)) (stays : leaver k call ≠ some p)
    (used : InUse k' p) :
    ∃ q, InUse k q ∧ leaver k call ≠ some q ∧ (k'.proc p).pgdir = (k.proc q).pgdir :=
  ⟨p, alike.inUse_iff.mp used, stays, alike.pgdir⟩

theorem Owned.step (owned : Owned k) (possible : Possible k call) (right : FreesRightly k call) :
    Owned (step k call) := by
  obtain ⟨canCall, fresh⟩ := possible
  have caller := CanCall.inUse canCall
  have outcome := step_outcome canCall
  cases outcome with
  | quiet scratch given nobody alike _ appends =>
    refine owned.next fresh right appends (fun _ freed => Or.inr freed) ?_
    intro p used
    exact Or.inl (stays_alike (alike p) (nobody_leaves nobody p) used)
  | spoiled p scratch pages given _ _ nobody _ still _ others _ appends =>
    refine owned.next fresh right appends (fun _ freed => Or.inr freed) ?_
    intro q used
    have other : q ≠ p := fun same => used (same ▸ still)
    exact Or.inl (stays_alike (others q other) (nobody_leaves nobody q) used)
  | created p dirs source nobody _ _ _ _ _ others _ appends =>
    refine owned.next fresh right appends (fun _ freed => absurd freed not_mem_nil) ?_
    intro q used
    by_cases same : q = p
    · subst same
      -- a `fork` brings a directory of its own, a `clone` that of its caller
      rcases source with ⟨new, given⟩ | ⟨_, shared⟩
      · refine Or.inr ⟨?_, ?_, not_mem_nil⟩
        · rw [given, new]
          exact mem_singleton_self _
        · rw [new]
          exact mem_singleton_self _
      · exact Or.inl ⟨call.cur, caller, nobody_leaves nobody _, shared⟩
    · exact Or.inl (stays_alike (others q same) (nobody_leaves nobody q) used)
  | exited leaves self others _ same _ appends =>
    refine owned.next fresh right appends (fun _ freed => absurd freed not_mem_nil) ?_
    intro q used
    refine Or.inl ⟨q, ?_, ?_, (same q).2.1⟩
    · by_cases leaving : q = call.cur
      · rw [leaving]
        exact caller
      · exact (not_congr (others q leaving).1).mp used
    · exact nobody_leaves (by rw [leaves]; rfl) q
  | collected p freevms found zombie how cleared others _ appends =>
    have left := leaver_of_collected found (how.imp (·.1) (·.1))
    refine owned.next fresh right appends ?_ ?_
    · intro pgdir freed
      rcases how with ⟨_, _, rfl⟩ | ⟨_, _, rfl⟩
      · rw [eq_of_mem_replicate freed]
        exact Or.inl (owned.handed p (by simp [InUse, zombie]))
      · cases freed
    · intro q used
      have other : q ≠ p := fun same => used (same ▸ cleared.1)
      refine Or.inl (stays_alike (others q other) ?_ used)
      rw [left, Ne, Option.some.injEq]
      exact fun same => other same.symm
  | replaced dir isExec self others _ appends =>
    obtain ⟨sz, sp, exec⟩ := isExec
    have left : leaver k call = some call.cur := by rw [exec]; rfl
    have given : ((ThreadTable.step k call).proc call.cur).pgdir ∈ call.dirs := by
      rw [dir]
      exact mem_singleton_self _
    refine owned.next fresh right appends ?_ ?_
    · intro pgdir freed
      rw [mem_singleton.mp freed]
      exact Or.inl (owned.handed _ caller)
    · intro q used
      by_cases same : q = call.cur
      · rw [same]
        refine Or.inr ⟨given, given, ?_⟩
        intro freed
        -- the new directory is not the old one, which is freed
        exact (owned.fresh fresh given).1 _ caller (mem_singleton.mp freed).symm
      · refine Or.inl (stays_alike (others q same) ?_ used)
        rw [left, Ne, Option.some.injEq]
        exact fun here => same here.symm

/-- A run frees every page directory rightly exactly if every call that takes a
process from its address space meets a separate state. -/
theorem freed_rightly_iff_separate (pgdir kstack : Addr) {calls : List Call}
    (all : Allowed ThreadTable.step Possible (boot pgdir kstack) calls) :
    Allowed ThreadTable.step FreesRightly (boot pgdir kstack) calls ↔
      Allowed ThreadTable.step Separate (boot pgdir kstack) calls := by
  have owned := boot_owned pgdir kstack
  generalize boot pgdir kstack = k at all owned ⊢
  induction calls generalizing k with
  | nil => exact Iff.rfl
  | cons call rest ih =>
    have here := owned.right_iff all.1
    constructor
    · rintro ⟨right, later⟩
      exact ⟨here.mp right, (ih _ all.2 (owned.step all.1 right)).mp later⟩
    · rintro ⟨separate, later⟩
      have right := here.mpr separate
      exact ⟨right, (ih _ all.2 (owned.step all.1 right)).mpr later⟩

def withThread : List Call :=
  [.fork 0 2 (.built 8), .clone 1 0 3, .exit 2, .join 1, .exit 1, .wait 0]

theorem withThread_frees_rightly :
    Allowed ThreadTable.step FreesRightly (boot 4 1) withThread ∧
      (run ThreadTable.step (boot 4 1) withThread).freevms = [8] := by
  have all : Allowed ThreadTable.step Possible (boot 4 1) withThread := by decide +kernel
  have separate : Allowed ThreadTable.step Separate (boot 4 1) withThread := by
    refine ⟨?_, ?_, ?_, ?_, ?_, ?_, trivial⟩
    · exact separate_of_nobody rfl
    · exact separate_of_nobody rfl
    · exact separate_of_nobody rfl
    · exact fun _ _ => trivial
    · exact separate_of_nobody rfl
    · exact (separate_wait (p := 1) (by decide +kernel)).mpr (by decide +kernel)
  exact ⟨(freed_rightly_iff_separate 4 1 all).mpr separate, by decide +kernel⟩

def alone : List Call := [.fork 0 2 (.built 8), .exit 1]

def outlived : List Call := [.fork 0 2 (.built 8), .clone 1 0 3, .exit 1]

/-- When init collects a process without threads, its page directory is not freed
though it was the last user; when init collects a process whose thread goes on,
the directory of the thread is freed. -/
theorem wait_frees_the_wrong_way_round :
    Allowed ThreadTable.step Possible (boot 4 1) (alone ++ [.wait 0]) ∧
      (run ThreadTable.step (boot 4 1) (alone ++ [.wait 0])).freevms = [] ∧
      ¬ FreesRightly (run ThreadTable.step (boot 4 1) alone) (.wait 0) ∧
      Allowed ThreadTable.step Possible (boot 4 1) (outlived ++ [.wait 0]) ∧
      (run ThreadTable.step (boot 4 1) (outlived ++ [.wait 0])).freevms = [8] ∧
      ((run ThreadTable.step (boot 4 1) (outlived ++ [.wait 0])).proc 2).state = .runnable ∧
      ((run ThreadTable.step (boot 4 1) (outlived ++ [.wait 0])).proc 2).pgdir = 8 ∧
      ¬ FreesRightly (run ThreadTable.step (boot 4 1) outlived) (.wait 0) := by
  refine ⟨by decide +kernel, by decide +kernel, ?_, by decide +kernel, by decide +kernel,
    by decide +kernel, by decide +kernel, ?_⟩
  · rintro ⟨_, frees, same, _, last⟩
    have before : (run ThreadTable.step (boot 4 1) alone).freevms = [] := by decide +kernel
    have after : (ThreadTable.step (run ThreadTable.step (boot 4 1) alone) (.wait 0)).freevms = [] := by
      decide +kernel
    rw [before, after, nil_append] at same
    subst same
    exact absurd (last 1 (by decide +kernel) (by decide +kernel)) not_mem_nil
  · rintro ⟨_, frees, same, unshared, _⟩
    have before : (run ThreadTable.step (boot 4 1) outlived).freevms = [] := by decide +kernel
    have after :
        (ThreadTable.step (run ThreadTable.step (boot 4 1) outlived) (.wait 0)).freevms = [8] := by
      decide +kernel
    rw [before, after, nil_append] at same
    subst same
    have wrong := unshared 8 (mem_singleton_self _) 2 (by decide +kernel) (by decide +kernel)
    exact absurd wrong (by decide +kernel)

end OsProjects.AddressSpaces
