import OsProjects.SystemCalls
import OsProjects.Runs

/-!
The tracer of `xv6_tracer.patch`. `sys_trace` copies a path to a buffer of 300
bytes and clears a counter, `sys_open` compares its path with the buffer and
counts. Both variables lie somewhere in the memory of the kernel, apart from
each other. The copy has no bound, so a path of 300 bytes or more is written
past the buffer. What `sys_open` does behind the comparison is left out: it
touches neither variable.
-/

namespace OsProjects.TraceCounts

open ByteStore SystemCalls Runs

structure Layout where
  pathname : Nat
  cnt : Nat
  apart : cnt + 4 ≤ pathname ∨ pathname + 300 ≤ cnt

def mystrcpy (mem : Bytes) (s : Nat) : List UInt8 → Bytes × List Nat
  | [] => (Function.update mem s 0, [s])
  | char :: rest =>
    let (mem, stores) := mystrcpy (Function.update mem s char) (s + 1) rest
    (mem, s :: stores)

def mystrcmp (mem : Bytes) (p : Nat) : List UInt8 → Int
  | [] => (mem p).toNat
  | char :: rest =>
    if mem p ≠ 0 ∧ mem p = char then mystrcmp mem (p + 1) rest
    else (mem p).toNat - char.toNat

structure Kernel where
  mem : Bytes
  stores : List Nat

section Calls
variable (layout : Layout) (kernel : Kernel) (user : User)

def sysTrace : Int × Kernel :=
  match argstr user 0 with
  | none => (-1, kernel)
  | some path =>
    let (mem, stores) := mystrcpy kernel.mem layout.pathname path
    (0, ⟨putWord mem layout.cnt 0, kernel.stores ++ stores⟩)

def sysGetcount : Int := signed (wordAt kernel.mem layout.cnt)

def openPath : Option (List UInt8) :=
  match argstr user 0 with
  | none => none
  | some path => if (argint user 1).isSome then some path else none

def sysOpen : Kernel :=
  match openPath user with
  | none => kernel
  | some path =>
    if mystrcmp kernel.mem layout.pathname path = 0 then
      { kernel with mem := putWord kernel.mem layout.cnt (wordAt kernel.mem layout.cnt + 1) }
    else kernel
end Calls

inductive Call where
  | trace (user : User)
  | open (user : User)
  | getcount

def step (layout : Layout) (kernel : Kernel) : Call → Kernel
  | .trace user => (sysTrace layout kernel user).2
  | .open user => sysOpen layout kernel user
  | .getcount => kernel

abbrev History := Option (List UInt8 × Nat)

def count (call : Call) (history : History) : History :=
  match call with
  | .trace user =>
    match argstr user 0 with
    | none => history
    | some path => some (path, 0)
  | .open user =>
    match openPath user with
    | none => history
    | some path => history.map fun (traced, n) => (traced, if path = traced then n + 1 else n)
  | .getcount => history

/-- Every copy stayed inside the buffer, and `sys_getcount` returns the number
of calls that opened the traced path. -/
structure Exact (layout : Layout) (kernel : Kernel) (history : History) : Prop where
  inside : ∀ addr ∈ kernel.stores, layout.pathname ≤ addr ∧ addr < layout.pathname + 300
  counts : ∀ path n, history = some (path, n) → sysGetcount layout kernel = n

def Fits (history : History) : Call → Prop
  | .trace user => ∀ path, argstr user 0 = some path → path.length < 300
  | .open user => ∀ path n, openPath user = some path → history = some (path, n) → n + 1 < 2 ^ 31
  | .getcount => True

def counted (layout : Layout) : Kernel × History → Call → Kernel × History :=
  recorded (step layout) fun _ call => count call

theorem mystrcpy_eq (mem : Bytes) (s : Nat) (text : List UInt8) :
    mystrcpy mem s text = (strcpy mem s text, List.range' s (text.length + 1)) := by
  induction text generalizing mem s with
  | nil =>
    refine Prod.ext (funext fun index => ?_) rfl
    by_cases here : index = s
    · simp [mystrcpy, strcpy, here]
    · have away : ¬ (s ≤ index ∧ index ≤ s) := by omega
      simp [mystrcpy, strcpy, here, away]
  | cons char rest ih =>
    simp only [mystrcpy, ih]
    refine Prod.ext (funext fun index => ?_) rfl
    simp only [strcpy, List.length_cons]
    by_cases here : index = s
    · simp [here]
    · by_cases later : s + 1 ≤ index ∧ index ≤ s + 1 + rest.length
      · rw [if_pos later, if_pos (by omega), show index - s = index - (s + 1) + 1 by omega,
          List.getElem?_cons_succ]
      · rw [if_neg later, if_neg (by omega), Function.update_of_ne here]

theorem mystrcmp_eq_zero (mem : Bytes) (p : Nat) (text : List UInt8) (plain : 0 ∉ text) :
    mystrcmp mem p text = 0 ↔ streq mem p text = true := by
  induction text generalizing p with
  | nil => simp [mystrcmp, streq, ← UInt8.toNat_inj]
  | cons char rest ih =>
    simp only [List.mem_cons, not_or] at plain
    simp only [mystrcmp, streq, Bool.and_eq_true, beq_iff_eq]
    split
    · rename_i here
      rw [ih (p + 1) plain.2]
      exact (and_iff_right here.2).symm
    · rename_i other
      refine iff_of_false ?_ fun both => other ⟨?_, both.1⟩
      · intro none
        have same : mem p = char := UInt8.toNat_inj.mp (by omega)
        exact other ⟨fun zero => plain.1 (zero.symm.trans same), same⟩
      · rw [both.1]
        exact fun zero => plain.1 zero.symm

/-- What holds as long as everything fits: the buffer has the traced path and
the counter the number of its `open`s. -/
structure Counting (layout : Layout) (state : Kernel × History) : Prop where
  inside : ∀ addr ∈ state.1.stores, layout.pathname ≤ addr ∧ addr < layout.pathname + 300
  path : ∀ path n, state.2 = some (path, n) →
    0 ∉ path ∧ path.length < 300 ∧ streq state.1.mem layout.pathname path = true
  number : ∀ path n, state.2 = some (path, n) →
    n < 2 ^ 31 ∧ (wordAt state.1.mem layout.cnt).toNat = n

section Steps
variable {layout : Layout} {state : Kernel × History}

theorem Counting.start (layout : Layout) (mem : Bytes) : Counting layout (⟨mem, []⟩, none) := by
  refine ⟨by simp, ?_, ?_⟩
  · intro path n known
    cases known
  · intro path n known
    cases known

theorem Counting.exact (counting : Counting layout state) : Exact layout state.1 state.2 := by
  refine ⟨counting.inside, fun path n known => ?_⟩
  obtain ⟨small, number⟩ := counting.number path n known
  rw [sysGetcount, signed, number, if_pos (by omega)]

theorem streq_putCount (layout : Layout) (mem : Bytes) (word : UInt32) {path : List UInt8}
    (short : path.length < 300) :
    streq (putWord mem layout.cnt word) layout.pathname path = streq mem layout.pathname path := by
  apply streq_congr
  intro index bound
  apply putWord_outside
  have := layout.apart
  omega

theorem Counting.trace (counting : Counting layout state) {user : User}
    (fits : Fits state.2 (.trace user)) : Counting layout (counted layout state (.trace user)) := by
  simp only [counted, recorded, step, sysTrace, count]
  cases found : argstr user 0 with
  | none => exact counting
  | some path =>
    have short := fits path found
    simp only [mystrcpy_eq]
    refine ⟨?_, ?_, ?_⟩
    · intro addr member
      rcases List.mem_append.mp member with old | new
      · exact counting.inside addr old
      · have := List.mem_range'_1.mp new
        omega
    · rintro traced n known
      cases known
      exact ⟨argstr_plain found, short, by rw [streq_putCount layout _ _ short, streq_strcpy]⟩
    · rintro traced n known
      cases known
      exact ⟨by decide, by rw [wordAt_putWord_same]; rfl⟩

/-- An `open` counts exactly if its path is the one in the buffer. -/
theorem Counting.compare (counting : Counting layout state) {path traced : List UInt8} {n : Nat}
    (plain : 0 ∉ path) (known : state.2 = some (traced, n)) :
    mystrcmp state.1.mem layout.pathname path = 0 ↔ path = traced := by
  obtain ⟨plain', _, holds⟩ := counting.path traced n known
  rw [mystrcmp_eq_zero _ _ _ plain]
  constructor
  · intro hit
    exact streq_unique _ _ _ _ plain plain' hit holds
  · rintro rfl
    exact holds

theorem openPath_plain {user : User} {path : List UInt8} (found : openPath user = some path) :
    0 ∉ path := by
  unfold openPath at found
  split at found
  · cases found
  · rename_i fetched
    split at found
    · cases found
      exact argstr_plain fetched
    · cases found

theorem Counting.open (counting : Counting layout state) {user : User}
    (fits : Fits state.2 (.open user)) : Counting layout (counted layout state (.open user)) := by
  obtain ⟨kernel, history⟩ := state
  simp only [counted, recorded, step, sysOpen, count]
  cases found : openPath user with
  | none => exact counting
  | some path =>
    have plain := openPath_plain found
    cases history with
    | none =>
      -- before the first `sys_trace` nothing is promised
      refine ⟨?_, ?_, ?_⟩
      · dsimp only
        split <;> exact counting.inside
      · intro path n known
        cases known
      · intro path n known
        cases known
    | some entry =>
      obtain ⟨traced, n⟩ := entry
      obtain ⟨plain', short, holds⟩ := counting.path traced n rfl
      obtain ⟨small, number⟩ := counting.number traced n rfl
      simp only [Option.map_some]
      by_cases same : path = traced
      · have next := fits path n found (by rw [same])
        rw [if_pos ((counting.compare plain rfl).mpr same), if_pos same]
        refine ⟨counting.inside, ?_, ?_⟩
        · rintro _ _ ⟨⟩
          exact ⟨plain', short, by rw [streq_putCount layout _ _ short]; exact holds⟩
        · rintro _ _ ⟨⟩
          refine ⟨next, ?_⟩
          dsimp only at number ⊢
          rw [wordAt_putWord_same, UInt32.toNat_add, number]
          exact Nat.mod_eq_of_lt (by show n + 1 < 4294967296; omega)
      · rw [if_neg (fun hit => same ((counting.compare plain rfl).mp hit)), if_neg same]
        exact counting

theorem Counting.step (counting : Counting layout state) {call : Call}
    (fits : Fits state.2 call) : Counting layout (counted layout state call) := by
  cases call with
  | trace user => exact counting.trace fits
  | «open» user => exact counting.open fits
  | getcount => exact counting

theorem Counting.fits (counting : Counting layout state) {call : Call}
    (exact : Exact layout (counted layout state call).1 (counted layout state call).2) :
    Fits state.2 call := by
  cases call with
  | trace user =>
    intro path found
    -- the terminator is stored right behind the path
    have stored : layout.pathname + path.length ∈
        (counted layout state (.trace user)).1.stores := by
      simp only [counted, recorded, TraceCounts.step, sysTrace, found, mystrcpy_eq]
      apply List.mem_append_right
      rw [List.mem_range'_1]
      omega
    have := exact.inside _ stored
    omega
  | «open» user =>
    intro path n found known
    obtain ⟨small, number⟩ := counting.number path n known
    have compared := (counting.compare (openPath_plain found) known).mpr rfl
    have shown := exact.counts path (n + 1) (by simp [counted, recorded, count, found, known])
    simp only [counted, recorded, TraceCounts.step, sysOpen, found, compared, if_pos, sysGetcount,
      wordAt_putWord_same, signed, UInt32.toNat_add, number, UInt32.reduceToNat] at shown
    rw [Nat.mod_eq_of_lt (by omega)] at shown
    split at shown <;> omega
  | getcount => trivial

end Steps

/-- In every sequence of calls, wherever the variables lie and whatever they
hold at the start: the tracer is exact all along iff every traced path has fewer
than 300 bytes and is opened less than `2^31` times. -/
theorem tracer_counts_exactly_iff (layout : Layout) (mem : Bytes) (calls : List Call) :
    (∀ front, front <+: calls → Exact layout (run (counted layout) (⟨mem, []⟩, none) front).1
          (run (counted layout) (⟨mem, []⟩, none) front).2) ↔
      Allowed (counted layout) (fun state => Fits state.2) (⟨mem, []⟩, none) calls := by
  exact always_iff (Counting layout) (fun state => Exact layout state.1 state.2)
    (fun _ counting => counting.exact) (fun _ _ counting _ fits => counting.step fits)
    (fun _ _ counting _ exact => counting.fits exact) (Counting.start layout mem)
    (allowed_all _ calls)

def caller (n : Nat) : User where
  bytes addr := if addr = 4 then 16 else if 16 ≤ addr ∧ addr < 16 + n then 97 else 0
  sz := 4096
  esp := 0

def neighbours : Layout := ⟨1000, 1300, .inr (by decide)⟩

/-- The terminator of a path of 300 letters is stored behind the buffer. -/
theorem long_path_leaves_the_buffer :
    argstr (caller 300) 0 = some (List.replicate 300 97) ∧ ¬ Exact neighbours
        (run (counted neighbours) (⟨fun _ => 0, []⟩, none) [.trace (caller 300)]).1
        (run (counted neighbours) (⟨fun _ => 0, []⟩, none) [.trace (caller 300)]).2 := by
  have fetched : argstr (caller 300) 0 = some (List.replicate 300 97) := by decide +kernel
  refine ⟨fetched, fun exact => ?_⟩
  have short : (List.replicate 300 (97 : UInt8)).length < 300 :=
    (Counting.start _ _).fits exact _ fetched
  rw [List.length_replicate] at short
  omega

end OsProjects.TraceCounts
