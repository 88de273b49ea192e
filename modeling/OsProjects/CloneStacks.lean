import OsProjects.SystemCalls
import OsProjects.ThreadOutcomes
import OsProjects.PageTables

/-!
`sys_clone` and the stack that `clone` sets up (`xv6-thread.patch`). The user
memory is one store. `sys_clone` checks all four arguments as pointers, so also
the two that it only passes on to the thread.
-/

namespace OsProjects.CloneStacks

open ByteStore ThreadTable ThreadOutcomes SystemCalls

def newStack (bytes : Bytes) (arg1 arg2 stack : UInt32) : Bytes :=
  let bytes := putWord bytes (stack + 4096 - 4).toNat arg2
  let bytes := putWord bytes (stack + 4096 - 8).toNat arg1
  putWord bytes (stack + 4096 - 12).toNat 0xffffffff

def clone (k : Kernel) (bytes : Bytes) (cur : Slot) (arg1 arg2 stack : UInt32) (kstack : Addr) :
    Ret × Kernel × Bytes :=
  match ThreadTable.clone k cur stack kstack with
  | (.value pid, k) => (.value pid, k, newStack bytes arg1 arg2 stack)
  | (ret, k) => (ret, k, bytes)

def caller (k : Kernel) (bytes : Bytes) (cur : Slot) : User :=
  ⟨bytes, (k.proc cur).sz, (k.proc cur).esp⟩

def sysClone (k : Kernel) (bytes : Bytes) (cur : Slot) (kstack : Addr) : Ret × Kernel × Bytes :=
  let user := caller k bytes cur
  match argptr user 1 4, argptr user 2 4, argptr user 3 4, argptr user 0 4 with
  | some arg1, some arg2, some stack, some _ => clone k bytes cur arg1 arg2 stack kstack
  | _, _, _, _ => (.fail, k, bytes)

structure Passed (user : User) (f arg1 arg2 stack : UInt32) : Prop where
  readable : user.esp.toNat + 20 ≤ user.sz.toNat
  first : wordAt user.bytes (user.esp.toNat + 4) = f
  second : wordAt user.bytes (user.esp.toNat + 8) = arg1
  third : wordAt user.bytes (user.esp.toNat + 12) = arg2
  fourth : wordAt user.bytes (user.esp.toNat + 16) = stack

def Pointer (sz addr : UInt32) : Prop := addr.toNat + 4 ≤ sz.toNat

def StackPage (sz stack : UInt32) : Prop :=
  stack.toNat % 4096 = 0 ∧ stack.toNat + 4096 ≤ sz.toNat

instance (sz addr : UInt32) : Decidable (Pointer sz addr) := inferInstanceAs (Decidable (_ ≤ _))

instance (sz stack : UInt32) : Decidable (StackPage sz stack) :=
  inferInstanceAs (Decidable (_ ∧ _))

structure Created (k : Kernel) (bytes : Bytes) (cur p : Slot) (arg1 arg2 stack : UInt32)
    (ret : Ret) (new : Kernel) (after : Bytes) : Prop where
  free : ¬ InUse k p
  returned : ret = .value k.nextpid
  pid : (new.proc p).pid = k.nextpid
  runnable : (new.proc p).state = .runnable
  parent : (new.proc p).parent = some cur
  space : (new.proc p).pgdir = (k.proc cur).pgdir ∧ (new.proc p).sz = (k.proc cur).sz
  others : ∀ q, q ≠ p → new.proc q = k.proc q
  low : stack.toNat ≤ (new.proc p).esp.toNat
  high : (new.proc p).esp.toNat + 12 ≤ stack.toNat + 4096
  address : wordAt after (new.proc p).esp.toNat = 0xffffffff
  arguments : wordAt after ((new.proc p).esp.toNat + 4) = arg1 ∧
    wordAt after ((new.proc p).esp.toNat + 8) = arg2
  outside : ∀ addr, addr < (new.proc p).esp.toNat ∨ (new.proc p).esp.toNat + 12 ≤ addr →
    after addr = bytes addr

section
variable {user : User} {f arg1 arg2 stack : UInt32}

theorem argint_eq {n : UInt32} (readable : user.esp.toNat + 20 ≤ user.sz.toNat)
    (small : n.toNat < 4) :
    argint user n = some (wordAt user.bytes (user.esp.toNat + 4 + 4 * n.toNat)) := by
  have high := user.sz.toNat_lt
  have place : (user.esp + 4 + 4 * n).toNat = user.esp.toNat + 4 + 4 * n.toNat := by
    simp only [UInt32.toNat_add, UInt32.toNat_mul, UInt32.reduceToNat]
    omega
  have next : (user.esp + 4 + 4 * n + 4).toNat = user.esp.toNat + 4 + 4 * n.toNat + 4 := by
    rw [UInt32.toNat_add, place]
    simp only [UInt32.reduceToNat]
    omega
  rw [argint, fetchint, if_neg, place]
  rw [ge_iff_le, gt_iff_lt, UInt32.le_iff_toNat_le, UInt32.lt_iff_toNat_lt, place, next]
  omega

/-- `argptr` gives the word it fetched if four bytes there are inside the process. -/
theorem argptr_eq {n i : UInt32} (below : user.sz.toNat < 2147483648)
    (fetched : argint user n = some i) :
    argptr user n 4 = if Pointer user.sz i then some i else none := by
  simp only [argptr, fetched]
  by_cases inside : Pointer user.sz i
  · rw [if_neg, if_pos inside]
    unfold Pointer at inside
    simp only [ge_iff_le, gt_iff_lt, UInt32.le_iff_toNat_le, UInt32.lt_iff_toNat_lt,
      UInt32.toNat_add, UInt32.reduceToNat]
    omega
  · rw [if_pos, if_neg inside]
    unfold Pointer at inside
    simp only [ge_iff_le, gt_iff_lt, UInt32.le_iff_toNat_le, UInt32.lt_iff_toNat_lt,
      UInt32.toNat_add, UInt32.reduceToNat]
    omega

theorem sysClone_eq {k : Kernel} {bytes : Bytes} {cur : Slot} (kstack : Addr)
    (below : (k.proc cur).sz.toNat < 2147483648)
    (passed : Passed (caller k bytes cur) f arg1 arg2 stack) :
    sysClone k bytes cur kstack = if Pointer (k.proc cur).sz arg1 ∧ Pointer (k.proc cur).sz arg2 ∧
          Pointer (k.proc cur).sz stack ∧ Pointer (k.proc cur).sz f
      then clone k bytes cur arg1 arg2 stack kstack else (.fail, k, bytes) := by
  have fetched : ∀ n i : UInt32, n.toNat < 4 →
      wordAt bytes ((k.proc cur).esp.toNat + 4 + 4 * n.toNat) = i →
      argptr (caller k bytes cur) n 4 = if Pointer (k.proc cur).sz i then some i else none := by
    intro n i small word
    exact argptr_eq below (by rw [argint_eq passed.readable small, ← word]; rfl)
  have arg1 := fetched 1 _ (by decide) passed.second
  have arg2 := fetched 2 _ (by decide) passed.third
  have stack := fetched 3 _ (by decide) passed.fourth
  have f := fetched 0 _ (by decide) passed.first
  simp only [sysClone, arg1, arg2, stack, f]
  split_ifs <;> simp_all

end

section
variable {k : Kernel} {bytes : Bytes} {cur : Slot} {arg1 arg2 stack : UInt32} {kstack : Addr}

/-- The test of `clone`, for a stack that starts inside the process. -/
theorem clone_refuses_iff (inside : stack < (k.proc cur).sz) :
    (stack % 4096 ≠ 0 ∨ (k.proc cur).sz - stack < 4096) ↔ ¬ StackPage (k.proc cur).sz stack := by
  rw [UInt32.lt_iff_toNat_lt] at inside
  rw [ne_eq, ← UInt32.toNat_inj, UInt32.toNat_mod, UInt32.lt_iff_toNat_lt,
    UInt32.toNat_sub_of_le _ _ (UInt32.le_iff_toNat_le.mpr (by omega)), StackPage]
  simp only [UInt32.reduceToNat, UInt32.toNat_zero]
  omega

theorem allocproc_room (room : ∃ p, ¬ InUse k p) (given : kstack ≠ 0) :
    ∃ p, ¬ InUse k p ∧ allocproc k kstack = (some p, taken k p kstack) := by
  rcases allocproc_cases k kstack with full | ⟨p, free, none, _⟩ | ⟨p, free, _, result⟩
  · obtain ⟨p, free⟩ := room
    have found : (List.finRange 64).find? (fun p => (k.proc p).state = .unused) ≠ none := by
      intro nobody
      have := List.find?_eq_none.mp nobody p (List.mem_finRange p)
      exact free (show (k.proc p).state ≠ .unused by simpa using this)
    unfold allocproc at full
    split at full
    · contradiction
    · simp [given] at full
  · exact absurd none given
  · exact ⟨p, not_not.mpr free, result⟩

theorem top_sub (fits : stack.toNat + 4096 < 4294967296) {down : UInt32}
    (small : down.toNat ≤ 4096) :
    (stack + 4096 - down).toNat = stack.toNat + 4096 - down.toNat := by
  have top : (stack + 4096).toNat = stack.toNat + 4096 := by
    rw [UInt32.toNat_add]
    exact Nat.mod_eq_of_lt fits
  rw [UInt32.toNat_sub_of_le _ _ (UInt32.le_iff_toNat_le.mpr (by omega)), top]

theorem newStack_eq (fits : stack.toNat + 4096 < 4294967296) :
    newStack bytes arg1 arg2 stack =
      putWord (putWord (putWord bytes (stack.toNat + 4092) arg2) (stack.toNat + 4088) arg1)
        (stack.toNat + 4084) 0xffffffff := by
  simp only [newStack, top_sub fits (by decide : (4 : UInt32).toNat ≤ 4096),
    top_sub fits (by decide : (8 : UInt32).toNat ≤ 4096),
    top_sub fits (by decide : (12 : UInt32).toNat ≤ 4096)]
  rfl

def thread (k : Kernel) (cur p : Slot) (stack : UInt32) (kstack : Addr) : Proc :=
  { k.proc p with
    sz := (k.proc cur).sz, pgdir := (k.proc cur).pgdir, kstack, state := .runnable
    pid := k.nextpid, parent := some cur, esp := stack + 4096 - 12 }

theorem clone_taken {p : Slot} (alive : InUse k cur) (free : ¬ InUse k p)
    (aligned : ¬ stack % 4096 ≠ 0) (inside : ¬ (k.proc cur).sz - stack < 4096)
    (result : allocproc k kstack = (some p, taken k p kstack)) :
    ThreadTable.clone k cur stack kstack = (.value k.nextpid,
        { k with nextpid := k.nextpid + 1 }.set p (thread k cur p stack kstack)) := by
  have other : cur ≠ p := fun same => free (same ▸ alive)
  rw [ThreadTable.clone, if_neg aligned, if_neg inside, result]
  simp only [taken, thread, Kernel.set, Function.update_self, Function.update_of_ne other,
    Function.update_idem]

theorem clone_created (below : (k.proc cur).sz.toNat < 2147483648) (alive : InUse k cur)
    (room : ∃ p, ¬ InUse k p) (given : kstack ≠ 0) (page : StackPage (k.proc cur).sz stack) :
    ∃ p ret new after, clone k bytes cur arg1 arg2 stack kstack = (ret, new, after) ∧
      Created k bytes cur p arg1 arg2 stack ret new after := by
  have fits : stack.toNat + 4096 < 4294967296 := by
    have := page.2
    omega
  have started : ¬ (stack % 4096 ≠ 0 ∨ (k.proc cur).sz - stack < 4096) := by
    have := page.2
    rw [clone_refuses_iff (UInt32.lt_iff_toNat_lt.mpr (by omega))]
    exact not_not.mpr page
  rw [not_or] at started
  obtain ⟨p, free, found⟩ := allocproc_room room given
  have result := clone_taken alive free started.1 started.2 found
  have esp : (stack + 4096 - 12).toNat = stack.toNat + 4084 := top_sub fits (by decide)
  refine ⟨p, _, _, newStack bytes arg1 arg2 stack, by rw [clone, result], ?_⟩
  rw [newStack_eq fits]
  exact {
    free, returned := rfl
    pid := by simp [thread]
    runnable := by simp [thread]
    parent := by simp [thread]
    space := by simp [thread]
    others := fun q other => by simp [other]
    low := by simp only [set_self, thread, esp]; omega
    high := by simp only [set_self, thread, esp]; omega
    address := by simp only [set_self, thread, esp, wordAt_putWord_same]
    arguments := by
      simp only [set_self, thread, esp]
      rw [wordAt_putWord_other (by omega), wordAt_putWord_same,
        wordAt_putWord_other (by omega), wordAt_putWord_other (by omega),
        wordAt_putWord_same]
      exact ⟨rfl, rfl⟩
    outside := fun addr apart => by
      simp only [set_self, thread, esp] at apart
      rw [putWord_outside (by omega), putWord_outside (by omega), putWord_outside (by omega)] }

end

/-- `sys_clone` creates a thread for a page of the process and two arguments
that point into it, and does nothing otherwise. -/
theorem sysClone_creates_exactly (k : Kernel) (bytes : Bytes) (cur : Slot) (kstack : Addr)
    (f arg1 arg2 stack : UInt32) (below : (k.proc cur).sz < PageTables.kernbase)
    (code : Pointer (k.proc cur).sz f) (alive : InUse k cur) (room : ∃ p, ¬ InUse k p)
    (given : kstack ≠ 0) (passed : Passed (caller k bytes cur) f arg1 arg2 stack) :
    (StackPage (k.proc cur).sz stack ∧ Pointer (k.proc cur).sz arg1 ∧ Pointer (k.proc cur).sz arg2 →
      ∃ p ret new after, sysClone k bytes cur kstack = (ret, new, after) ∧
        Created k bytes cur p arg1 arg2 stack ret new after) ∧
    (¬ (StackPage (k.proc cur).sz stack ∧ Pointer (k.proc cur).sz arg1 ∧
        Pointer (k.proc cur).sz arg2) →
      sysClone k bytes cur kstack = (.fail, k, bytes)) := by
  have small : (k.proc cur).sz.toNat < 2147483648 := UInt32.lt_iff_toNat_lt.mp below
  rw [sysClone_eq kstack small passed]
  constructor
  · rintro ⟨page, first, second⟩
    have start : Pointer (k.proc cur).sz stack := by
      have := page.2
      unfold Pointer
      omega
    rw [if_pos ⟨first, second, start, code⟩]
    exact clone_created small alive room given page
  · intro invalid
    by_cases checked : Pointer (k.proc cur).sz arg1 ∧ Pointer (k.proc cur).sz arg2 ∧
        Pointer (k.proc cur).sz stack ∧ Pointer (k.proc cur).sz f
    · obtain ⟨first, second, start, _⟩ := checked
      have page : ¬ StackPage (k.proc cur).sz stack := fun page => invalid ⟨page, first, second⟩
      have inside : stack < (k.proc cur).sz := by
        unfold Pointer at start
        exact UInt32.lt_iff_toNat_lt.mpr (by omega)
      rw [if_pos ⟨first, second, start, code⟩, clone, ThreadTable.clone]
      rcases (clone_refuses_iff inside).mpr page with unaligned | short
      · rw [if_pos unaligned]
      · rw [if_pos short, ite_self]
    · rw [if_neg checked]

def twoPages : Kernel :=
  (boot 4096 8192).set 0 { (boot 4096 8192).proc 0 with sz := 8192, esp := 0 }

def passing (arg1 : UInt32) : Bytes := putWord (putWord (fun _ => 0) 8 arg1) 16 4096

theorem passed_passing (arg1 : UInt32) :
    Passed (caller twoPages (passing arg1) 0) 0 arg1 0 4096 where
  readable := (by decide : (0 : UInt32).toNat + 20 ≤ (8192 : UInt32).toNat)
  first := by
    show wordAt (putWord (putWord (fun _ => 0) 8 arg1) 16 4096) 4 = 0
    rw [wordAt_putWord_other (by decide), wordAt_putWord_other (by decide)]
    rfl
  second := by
    show wordAt (putWord (putWord (fun _ => 0) 8 arg1) 16 4096) 8 = arg1
    rw [wordAt_putWord_other (by decide), wordAt_putWord_same]
  third := by
    show wordAt (putWord (putWord (fun _ => 0) 8 arg1) 16 4096) 12 = 0
    rw [wordAt_putWord_other (by decide), wordAt_putWord_other (by decide)]
    rfl
  fourth := wordAt_putWord_same _ 16 4096

theorem sysClone_creates_secondPage :
    ∃ p ret new after, sysClone twoPages (passing 12) 0 12288 = (ret, new, after) ∧
      Created twoPages (passing 12) 0 p 12 0 4096 ret new after :=
  (sysClone_creates_exactly twoPages (passing 12) 0 12288 0 12 0 4096 (by decide) (by decide)
    (by decide) ⟨1, by decide⟩ (by decide) (passed_passing 12)).1 (by decide)

/-- The number 100000 is no argument for a thread of this process. -/
theorem sysClone_refuses_number :
    ((twoPages.proc 0).sz < PageTables.kernbase ∧ Pointer (twoPages.proc 0).sz 0 ∧
        InUse twoPages 0 ∧ ¬ InUse twoPages 1) ∧
      StackPage (twoPages.proc 0).sz 4096 ∧
      Passed (caller twoPages (passing 100000) 0) 0 100000 0 4096 ∧
      sysClone twoPages (passing 100000) 0 12288 = (.fail, twoPages, passing 100000) := by
  refine ⟨by decide, by decide, passed_passing 100000, ?_⟩
  rw [sysClone_eq 12288 (by decide) (passed_passing 100000), if_neg (by decide)]

end OsProjects.CloneStacks
