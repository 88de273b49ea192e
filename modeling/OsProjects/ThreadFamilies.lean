import OsProjects.AddressSpaces

/-!
Which processes share a page directory. An address space has one process that
came with it, by `fork`, by `exec` or at the start, and the threads that `clone`
added. The parent of the first is outside, so what `join` collects is a thread.
A note is kept for each thread; `fork` makes no note, and who is collected or
leaves by `exec` loses it.
-/

namespace OsProjects.ThreadFamilies

open ThreadTable ThreadOutcomes AddressSpaces Function

variable {Note : Type} {k k' : Kernel} {call : Call} {notes : Slot → Option Note}

def forget (k : Kernel) (call : Call) (notes : Slot → Option Note) : Slot → Option Note :=
  match leaver k call with
  | some p => update notes p none
  | none => notes

structure Family (k : Kernel) (notes : Slot → Option Note) : Prop where
  handed : ∀ p, InUse k p → (k.proc p).pgdir ∈ k.dirs
  /-- a pid is not the -1 of a failure -/
  pids : ∀ p, InUse k p → (k.proc p).pid ≠ 0xffffffff
  parents : ∀ p q, InUse k p → (k.proc p).parent = some q →
    InUse k q ∧ (k.proc q).state ≠ .zombie ∧ q ≠ p
  init : InUse k k.initproc ∧ (k.proc k.initproc).state ≠ .zombie ∧
    (k.proc k.initproc).parent = none ∧ notes k.initproc = none
  idle : ∀ p, ¬ InUse k p → notes p = none
  roots : ∀ p q, InUse k p → InUse k q → notes p = none → notes q = none →
    (k.proc p).pgdir = (k.proc q).pgdir → p = q
  outside : ∀ p q, InUse k p → notes p = none → (k.proc p).parent = some q →
    (k.proc q).pgdir ≠ (k.proc p).pgdir

theorem boot_family (pgdir kstack : Addr) :
    Family (boot pgdir kstack) fun _ => (none : Option Note) where
  handed p used := by
    by_cases first : p = 0
    · simp [boot, first]
    · exact absurd (by simp [boot, first]) used
  pids p used := by
    by_cases first : p = 0
    · simp [boot, first]
    · exact absurd (by simp [boot, first]) used
  parents p q _ parent := by
    simp only [boot] at parent
    split at parent <;> cases parent
  init := by simp [boot, InUse]
  idle _ _ := rfl
  roots p q usedP usedQ _ _ _ := by
    have first : ∀ i, InUse (boot pgdir kstack) i → i = 0 := by
      intro i used
      by_contra other
      exact used (by simp [boot, other])
    rw [first p usedP, first q usedQ]
  outside p q _ _ parent := by
    simp only [boot] at parent
    split at parent <;> cases parent

structure Keeps (k k' : Kernel) : Prop where
  used : ∀ p, InUse k' p ↔ InUse k p
  alike : ∀ p, InUse k p → Alike (k.proc p) (k'.proc p)
  initproc : k'.initproc = k.initproc
  dirs : k.dirs ⊆ k'.dirs

section
variable (family : Family k notes)
include family

/-- Processes that have exited may go; the others stay as they are. -/
theorem Family.restrict {notes' : Slot → Option Note}
    (old : ∀ p, InUse k' p → InUse k p)
    (stays : ∀ p, InUse k p → (k.proc p).state ≠ .zombie → InUse k' p)
    (alike : ∀ p, InUse k' p → Alike (k.proc p) (k'.proc p))
    (noted : ∀ p, InUse k' p → notes' p = notes p) (idle : ∀ p, ¬ InUse k' p → notes' p = none)
    (initproc : k'.initproc = k.initproc) (dirs : k.dirs ⊆ k'.dirs) : Family k' notes' where
  handed p used := by
    rw [(alike p used).pgdir]
    exact dirs (family.handed p (old p used))
  pids p used := by
    rw [(alike p used).pid]
    exact family.pids p (old p used)
  parents p q used parent := by
    rw [(alike p used).parent] at parent
    obtain ⟨usedQ, lives, other⟩ := family.parents p q (old p used) parent
    have usedQ := stays q usedQ lives
    rw [ne_eq, (alike q usedQ).zombie]
    exact ⟨usedQ, lives, other⟩
  init := by
    obtain ⟨used, lives, parent, note⟩ := family.init
    have used := stays _ used lives
    rw [initproc, ne_eq, (alike _ used).zombie, (alike _ used).parent, noted _ used]
    exact ⟨used, lives, parent, note⟩
  idle := idle
  roots p q usedP usedQ noteP noteQ same := by
    rw [noted p usedP] at noteP
    rw [noted q usedQ] at noteQ
    rw [(alike p usedP).pgdir, (alike q usedQ).pgdir] at same
    exact family.roots p q (old p usedP) (old q usedQ) noteP noteQ same
  outside p q used note parent := by
    rw [noted p used] at note
    rw [(alike p used).parent] at parent
    obtain ⟨usedQ, lives, _⟩ := family.parents p q (old p used) parent
    rw [(alike p used).pgdir, (alike q (stays q usedQ lives)).pgdir]
    exact family.outside p q (old p used) note parent

theorem Family.keep (keeps : Keeps k k') : Family k' notes :=
  family.restrict (fun p => (keeps.used p).mp) (fun p used _ => (keeps.used p).mpr used)
    (fun p used => keeps.alike p ((keeps.used p).mp used)) (fun _ _ => rfl)
    (fun p unused => family.idle p (by rwa [keeps.used] at unused)) keeps.initproc keeps.dirs

/-- The end of a process that has exited; nobody has it for a parent. -/
theorem Family.collected {p : Slot}
    (zombie : (k.proc p).state = .zombie) (cleared : (k'.proc p).state = .unused)
    (others : ∀ i, i ≠ p → Alike (k.proc i) (k'.proc i)) (initproc : k'.initproc = k.initproc)
    (dirs : k.dirs ⊆ k'.dirs) : Family k' (update notes p none) := by
  have apart : ∀ q, InUse k' q → q ≠ p := by
    rintro q used rfl
    exact used cleared
  refine family.restrict (fun q used => (others q (apart q used)).inUse_iff.mp used)
    (fun q used lives => ?_) (fun q used => others q (apart q used))
    (fun q used => update_of_ne (apart q used) ..) (fun q unused => ?_) initproc dirs
  · have other : q ≠ p := fun same => lives (same ▸ zombie)
    exact (others q other).inUse_iff.mpr used
  · by_cases here : q = p
    · rw [here, update_self]
    · rw [update_of_ne here]
      exact family.idle q (by rwa [(others q here).inUse_iff] at unused)

/-- A process comes, or changes its address space: it has a note, or nobody else
has the page directory. -/
theorem Family.placed {p : Slot} {note : Option Note} (used : InUse k' p)
    (lives : InUse k p → (k.proc p).state ≠ .zombie → (k'.proc p).state ≠ .zombie)
    (handed : (k'.proc p).pgdir ∈ k'.dirs) (pid : (k'.proc p).pid ≠ 0xffffffff)
    (parent : ∀ q, (k'.proc p).parent = some q → InUse k q ∧ (k.proc q).state ≠ .zombie ∧ q ≠ p)
    (init : p = k.initproc → (k'.proc p).parent = none) (bare : InUse k p → note = none)
    (root : note = none → ∀ q, InUse k q → (k.proc q).pgdir ≠ (k'.proc p).pgdir)
    (others : ∀ i, i ≠ p → Alike (k.proc i) (k'.proc i)) (initproc : k'.initproc = k.initproc)
    (dirs : k.dirs ⊆ k'.dirs) : Family k' (update notes p note) := by
  have old : ∀ q, q ≠ p → InUse k' q → InUse k q := fun q apart => (others q apart).inUse_iff.mp
  -- who was alive is so afterwards, the process itself included
  have alive : ∀ q, InUse k q → (k.proc q).state ≠ .zombie →
      InUse k' q ∧ (k'.proc q).state ≠ .zombie := by
    intro q usedQ livesQ
    by_cases here : q = p
    · subst here
      exact ⟨used, lives usedQ livesQ⟩
    · rw [(others q here).inUse_iff, ne_eq, (others q here).zombie]
      exact ⟨usedQ, livesQ⟩
  have rises : ∀ q r, InUse k' q → (k'.proc q).parent = some r →
      InUse k r ∧ (k.proc r).state ≠ .zombie ∧ r ≠ q := by
    intro q r usedQ rises
    by_cases here : q = p
    · subst here
      exact parent r rises
    · rw [(others q here).parent] at rises
      exact family.parents q r (old q here usedQ) rises
  refine {
    handed := fun q usedQ => ?_, pids := fun q usedQ => ?_, parents := fun q r usedQ rise => ?_
    init := ?_, idle := fun q unused => ?_, roots := fun q r usedQ usedR noteQ noteR same => ?_
    outside := fun q r usedQ noteQ rise => ?_ }
  · by_cases here : q = p
    · exact here ▸ handed
    · rw [(others q here).pgdir]
      exact dirs (family.handed q (old q here usedQ))
  · by_cases here : q = p
    · exact here ▸ pid
    · rw [(others q here).pid]
      exact family.pids q (old q here usedQ)
  · obtain ⟨usedR, livesR, distinct⟩ := rises q r usedQ rise
    exact ⟨(alive r usedR livesR).1, (alive r usedR livesR).2, distinct⟩
  · obtain ⟨usedI, livesI, parentless, noteless⟩ := family.init
    rw [initproc]
    refine ⟨(alive _ usedI livesI).1, (alive _ usedI livesI).2, ?_⟩
    by_cases here : k.initproc = p
    · rw [here, update_self]
      exact ⟨init here.symm, bare (here ▸ usedI)⟩
    · rw [(others _ here).parent, update_of_ne here]
      exact ⟨parentless, noteless⟩
  · have apart : q ≠ p := fun here => unused (here ▸ used)
    rw [update_of_ne apart]
    exact family.idle q (by rwa [(others q apart).inUse_iff] at unused)
  · by_cases hereQ : q = p <;> by_cases hereR : r = p
    · rw [hereQ, hereR]
    · subst hereQ
      rw [update_self] at noteQ
      rw [(others r hereR).pgdir] at same
      exact absurd same.symm (root noteQ r (old r hereR usedR))
    · subst hereR
      rw [update_self] at noteR
      rw [(others q hereQ).pgdir] at same
      exact absurd same (root noteR q (old q hereQ usedQ))
    · rw [update_of_ne hereQ] at noteQ
      rw [update_of_ne hereR] at noteR
      rw [(others q hereQ).pgdir, (others r hereR).pgdir] at same
      exact family.roots q r (old q hereQ usedQ) (old r hereR usedR) noteQ noteR same
  · obtain ⟨usedR, _, distinct⟩ := rises q r usedQ rise
    by_cases hereQ : q = p
    · subst hereQ
      rw [update_self] at noteQ
      rw [(others r distinct).pgdir]
      exact root noteQ r usedR
    · rw [update_of_ne hereQ] at noteQ
      rw [(others q hereQ).parent] at rise
      rw [(others q hereQ).pgdir]
      by_cases hereR : r = p
      · subst hereR
        exact (root (bare usedR) q (old q hereQ usedQ)).symm
      · rw [(others r hereR).pgdir]
        exact family.outside q r (old q hereQ usedQ) noteQ rise

/-- A new process, in an address space of its own or with a note. -/
theorem Family.created {p cur : Slot} {note : Option Note}
    (free : ¬ InUse k p) (alive : (k'.proc p).state = .runnable)
    (pid : (k'.proc p).pid ≠ 0xffffffff) (parent : (k'.proc p).parent = some cur)
    (caller : InUse k cur ∧ (k.proc cur).state ≠ .zombie)
    (others : ∀ i, i ≠ p → Alike (k.proc i) (k'.proc i)) (initproc : k'.initproc = k.initproc)
    (dirs : k.dirs ⊆ k'.dirs) (handed : (k'.proc p).pgdir ∈ k'.dirs)
    (root : note = none → ∀ q, InUse k q → (k.proc q).pgdir ≠ (k'.proc p).pgdir) :
    Family k' (update notes p note) := by
  refine family.placed (by simp [InUse, alive]) (fun used => absurd used free) handed pid
    (fun q rises => ?_) (fun init => absurd (init ▸ family.init.1) free)
    (fun used => absurd used free) root others initproc dirs
  cases parent.symm.trans rises
  exact ⟨caller.1, caller.2, fun same => free (same ▸ caller.1)⟩

/-- The caller of `exec` starts an address space of its own. -/
theorem Family.replaced {cur : Slot} (used : InUse k cur)
    (self : Alike { k.proc cur with pgdir := (k'.proc cur).pgdir } (k'.proc cur))
    (others : ∀ i, i ≠ cur → Alike (k.proc i) (k'.proc i)) (initproc : k'.initproc = k.initproc)
    (dirs : k.dirs ⊆ k'.dirs) (handed : (k'.proc cur).pgdir ∈ k'.dirs)
    (fresh : ∀ q, InUse k q → (k.proc q).pgdir ≠ (k'.proc cur).pgdir) :
    Family k' (update notes cur none) := by
  refine family.placed ((not_congr self.unused).mpr used)
    (fun _ lives => (not_congr self.zombie).mpr lives) handed ?_ (fun q rises => ?_)
    (fun init => ?_) (fun _ => rfl) (fun _ => fresh) others initproc dirs
  · rw [self.pid]
    exact family.pids cur used
  · rw [self.parent] at rises
    exact family.parents cur q used rises
  · rw [self.parent, init]
    exact family.init.2.2.1

/-- An exit: the children go to init, which is no other space's first process. -/
theorem Family.exited {cur : Slot} (isInit : cur ≠ k.initproc)
    (used : InUse k cur) (self : (k'.proc cur).state = .zombie)
    (others : ∀ i, i ≠ cur → ((k'.proc i).state = .unused ↔ (k.proc i).state = .unused) ∧
      ((k'.proc i).state = .zombie ↔ (k.proc i).state = .zombie))
    (parent : ∀ i, (k'.proc i).parent =
      if (k.proc i).parent = some cur then some k.initproc else (k.proc i).parent)
    (same : ∀ i, (k'.proc i).pid = (k.proc i).pid ∧ (k'.proc i).pgdir = (k.proc i).pgdir)
    (initproc : k'.initproc = k.initproc) (dirs : k.dirs ⊆ k'.dirs) : Family k' notes := by
  have uses : ∀ p, InUse k' p ↔ InUse k p := by
    intro p
    by_cases here : p = cur
    · subst here
      exact iff_of_true (by simp [InUse, self]) used
    · exact not_congr (others p here).1
  have lives : ∀ p, p ≠ cur → (k.proc p).state ≠ .zombie → (k'.proc p).state ≠ .zombie := by
    intro p apart
    exact (not_congr (others p apart).2).mpr
  obtain ⟨initUsed, initLives, initParent, initBare⟩ := family.init
  refine {
    handed := fun p used => ?_, pids := fun p used => ?_, parents := fun p q used rises => ?_
    init := ?_, idle := fun p unused => ?_, roots := fun p q usedP usedQ noteP noteQ equal => ?_
    outside := fun p q used note rises => ?_ }
  · rw [uses] at used
    rw [(same p).2]
    exact dirs (family.handed p used)
  · rw [uses] at used
    rw [(same p).1]
    exact family.pids p used
  · rw [uses] at used
    rw [parent] at rises
    split_ifs at rises with orphan
    · cases rises
      have other : k.initproc ≠ p := by
        rintro rfl
        rw [initParent] at orphan
        cases orphan
      exact ⟨(uses _).mpr initUsed, lives _ (Ne.symm isInit) initLives, other⟩
    · obtain ⟨usedQ, livesQ, other⟩ := family.parents p q used rises
      have apart : q ≠ cur := by
        rintro rfl
        exact orphan rises
      exact ⟨(uses q).mpr usedQ, lives q apart livesQ, other⟩
  · rw [initproc, uses, parent, initParent, if_neg (by simp)]
    exact ⟨initUsed, lives _ (Ne.symm isInit) initLives, rfl, initBare⟩
  · exact family.idle p (by rwa [uses] at unused)
  · rw [uses] at usedP usedQ
    rw [(same p).2, (same q).2] at equal
    exact family.roots p q usedP usedQ noteP noteQ equal
  · rw [uses] at used
    rw [parent] at rises
    rw [(same p).2, (same q).2]
    split_ifs at rises with orphan
    · cases rises
      intro equal
      have := family.roots k.initproc p initUsed used initBare note equal
      rw [← this, initParent] at orphan
      cases orphan
    · exact family.outside p q used note rises
end

theorem canCall_alive (canCall : CanCall k call) :
    InUse k call.cur ∧ (k.proc call.cur).state ≠ .zombie := by
  refine ⟨CanCall.inUse canCall, ?_⟩
  rcases canCall.1 with runs | runs <;> simp [runs]

section
variable {dirs freevms kfrees : List Addr} {returned : List UInt32}

theorem dirs_subset (appends : Appends k k' dirs freevms kfrees returned) : k.dirs ⊆ k'.dirs := by
  rw [appends.dirs]
  exact List.subset_append_left _ _

theorem keeps_of_alike (alike : ∀ i, Alike (k.proc i) (k'.proc i))
    (appends : Appends k k' dirs freevms kfrees returned) : Keeps k k' :=
  ⟨fun p => (alike p).inUse_iff, fun p _ => alike p, appends.initproc, dirs_subset appends⟩

theorem keeps_of_spoiled {p : Slot}
    (free : (k.proc p).state = .unused) (still : (k'.proc p).state = .unused)
    (others : ∀ i, i ≠ p → Alike (k.proc i) (k'.proc i))
    (appends : Appends k k' dirs freevms kfrees returned) : Keeps k k' where
  used i := by
    by_cases here : i = p
    · subst here
      exact iff_of_false (not_not.mpr still) (not_not.mpr free)
    · exact (others i here).inUse_iff
  alike i used := others i fun here => used (here ▸ free)
  initproc := appends.initproc
  dirs := dirs_subset appends
end

/-- A process that `fork` creates has the directory that `copyuvm` made. -/
theorem fork_pgdir {cur p : Slot} {stack : Addr} {copy : Build} (free : ¬ InUse k p)
    (used : InUse (step k (.fork cur stack copy)) p) :
    ((step k (.fork cur stack copy)).proc p).pgdir ∈ copy.dirs := by
  simp only [step, fork] at used ⊢
  rcases allocproc_cases k stack with full | ⟨q, unused, _, result⟩ | ⟨q, unused, _, result⟩
  · rw [full] at used
    exact absurd used free
  · rw [result] at used
    by_cases here : p = q
    · exact absurd (by simp [here]) used
    · rw [InUse, set_other _ _ here] at used
      exact absurd used free
  · rw [result] at used ⊢
    by_cases here : p = q
    · subst here
      cases copy with
      | failed scratch => exact absurd (by simp) used
      | built pgdir => simp [Build.dirs]
    · refine absurd ?_ free
      cases copy with
      | failed scratch => simpa [InUse, Kernel.kfree, here] using used
      | built pgdir => simpa [InUse, here] using used

theorem pid_left (left : PidLeft k call) (asks : call.kallocs ≠ []) : k.nextpid ≠ 0xffffffff := by
  intro top
  have := left asks
  rw [top] at this
  exact absurd this (by decide)

theorem Family.step (family : Family k notes) (canCall : CanCall k call) (fresh : FreshDir k call)
    (left : PidLeft k call) (cloneless : ∀ cur stack kstack, call ≠ .clone cur stack kstack) :
    Family (step k call) (forget k call notes) := by
  have unhanded : ∀ pgdir ∈ call.dirs, ∀ q, InUse k q → (k.proc q).pgdir ≠ pgdir := by
    intro pgdir new q used same
    exact (fresh pgdir new).2 (same ▸ family.handed q used)
  cases step_outcome canCall with
  | quiet scratch given nobody alike nextpid appends =>
    rw [forget, nobody]
    exact family.keep (keeps_of_alike alike appends)
  | spoiled p scratch pages given asks pagesGiven nobody free still parent others nextpid appends =>
    rw [forget, nobody]
    exact family.keep (keeps_of_spoiled free still others appends)
  | created p dirs source nobody free alive pid parent stack others nextpid appends =>
    have made : ((ThreadTable.step k call).proc p).pgdir ∈ call.dirs := by
      have used : InUse (ThreadTable.step k call) p := by simp [InUse, alive]
      cases call with
      | fork cur stack copy => exact fork_pgdir (not_not.mpr free) used
      | clone cur page kstack => exact absurd rfl (cloneless cur page kstack)
      | exec | exit | wait | join => simp [Call.kallocs] at stack
    have same : notes = update notes p none := by
      rw [eq_update_iff]
      exact ⟨family.idle p (not_not.mpr free), fun _ _ => rfl⟩
    rw [forget, nobody]
    simp only
    rw [same]
    refine family.created (not_not.mpr free) alive ?_ parent (canCall_alive canCall) others
      appends.initproc (dirs_subset appends) ?_ fun _ => unhanded _ made
    · rw [pid]
      exact pid_left left (by simp [stack.1])
    · rw [appends.dirs, List.mem_append]
      rcases source with ⟨new, _⟩ | ⟨_, shared⟩
      · exact .inr (by simp [new])
      · exact .inl (shared ▸ family.handed _ (CanCall.inUse canCall))
  | exited leaves self others parent same nextpid appends =>
    have nobody : leaver k call = none := by rw [leaves]; rfl
    rw [forget, nobody]
    have isInit : call.cur ≠ k.initproc := fun init => canCall.2 (by rw [leaves, init])
    exact family.exited isInit (CanCall.inUse canCall) self others parent
      (fun i => ⟨(same i).1, (same i).2.1⟩) appends.initproc (dirs_subset appends)
  | collected p freevms found zombie how cleared others nextpid appends =>
    have left : leaver k call = some p :=
      leaver_of_collected found (how.imp (fun h => h.1) fun h => h.1)
    rw [forget, left]
    exact family.collected zombie cleared.1 others appends.initproc (dirs_subset appends)
  | replaced dir isExec self others nextpid appends =>
    obtain ⟨sz, sp, isExec⟩ := isExec
    have left : leaver k call = some call.cur := by
      rw [isExec]
      rfl
    have new : ((ThreadTable.step k call).proc call.cur).pgdir ∈ call.dirs := by simp [dir]
    rw [forget, left]
    refine family.replaced (CanCall.inUse canCall) self others appends.initproc
      (dirs_subset appends) ?_ (unhanded _ new)
    rw [appends.dirs, List.mem_append]
    exact .inr new

end OsProjects.ThreadFamilies
