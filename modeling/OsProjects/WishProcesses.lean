import OsProjects.WishLines
import OsProjects.Runs

/-!
The processes of the shell. `runCmd` forks; the child redirects its output and
calls `execv`, the parent waits. There is nothing behind the `execv`, so a child
whose `execv` fails returns from `runCmd` like its parent, and from then on reads
and runs lines as a second shell.
-/

namespace OsProjects.WishProcesses

open Runs WishLines

/-- Where `runCmd` was called: as the last thing of a turn, or for the first
command of an `if`. -/
inductive After where
  | loop
  | test (op number : Str) (second : List Str)
  deriving DecidableEq

inductive Stage where
  /-- at the head of the read loop -/
  | reading
  /-- in `runCmd`, before the fork -/
  | forking (cbin : Str) (toks : List Str) (rdout : Str) (after : After)
  /-- in `runCmd`, in the child -/
  | child (cbin : Str) (toks : List Str) (rdout : Str) (after : After)
  /-- in `runCmd`, in the parent, before the wait -/
  | waiting (after : After)
  /-- `execv` has succeeded -/
  | replaced (cbin : Str) (toks : List Str)
  | exited (code : UInt8)
  | faulted
  deriving DecidableEq

structure Shell where
  initial : Bool
  paths : List Str
  stage : Stage
  deriving DecidableEq

structure Choice where
  /-- what `getline` reads; `none` is the end of the file -/
  line : Option Str
  /-- what lies before the token array -/
  stray : Option Str
  access : Str → Bool
  forks : Bool
  execs : Bool
  /-- the exit status of the child that `wait` returns, unless it was killed -/
  status : Option UInt8
  /-- what the variable `rt` holds before anything is stored in it -/
  rt : Int

/-- `findCbin` and the call of `runCmd`. A missing command name is read through a
null pointer as soon as there is a path to try. -/
def Shell.call (shell : Shell) (choice : Choice) (toks : List Str) (after : After) : Stage :=
  match toks with
  | [] => if shell.paths = [] then .forking [] [] [] after else .faulted
  | cmd :: _ => .forking (findCbin choice.access cmd shell.paths) toks [] after

def Shell.read (shell : Shell) (choice : Choice) : Shell :=
  match choice.line with
  | none => { shell with stage := .exited 0 }
  | some line =>
    match parseLine line choice.stray with
    | .blank => shell
    | .refused => shell
    | .exit => { shell with stage := .exited 0 }
    | .cd _ => shell
    | .path paths => { shell with paths }
    | .command toks rdout =>
      let cbin := findCbin choice.access (toks.headD []) shell.paths
      if cbin ≠ [] then { shell with stage := .forking cbin toks rdout .loop } else shell
    | .test first op number second =>
      { shell with stage := shell.call choice first (.test op number second) }
    | .fault => { shell with stage := .faulted }

def Shell.resume (shell : Shell) (choice : Choice) (rt : Int) : After → Shell
  | .loop => { shell with stage := .reading }
  | .test op number second =>
    if (op = equalWord ∧ rt = atoi number) ∨ (op = differsWord ∧ rt ≠ atoi number) then
      { shell with stage := shell.call choice second .loop }
    else { shell with stage := .reading }

def Shell.next (shell : Shell) (choice : Choice) : Shell :=
  match shell.stage with
  | .reading => shell.read choice
  | .forking _ _ _ after =>
    if choice.forks then { shell with stage := .waiting after }
    else { shell with stage := .exited 1 }
  | .child cbin toks _ after =>
    -- a child whose `execv` fails returns from `runCmd` like its parent
    if choice.execs then { shell with stage := .replaced cbin toks }
    else shell.resume choice choice.rt after
  | .waiting after =>
    match choice.status with
    | some code => shell.resume choice code.toNat after
    | none => shell.resume choice choice.rt after
  | _ => shell

def Shell.forked (shell : Shell) (choice : Choice) : List Shell :=
  match shell.stage with
  | .forking cbin toks rdout after =>
    if choice.forks then [⟨false, shell.paths, .child cbin toks rdout after⟩] else []
  | _ => []

def step (shells : List Shell) (event : Nat × Choice) : List Shell :=
  match shells[event.1]? with
  | none => shells
  | some shell => shells.set event.1 (shell.next event.2) ++ shell.forked event.2

def start : List Shell := [⟨true, [[47, 98, 105, 110]], .reading⟩]

/-- The process is still in the `runCmd` that forked it, or has become another
program. -/
def Stage.away : Stage → Bool
  | .child _ _ _ _ => true
  | .replaced _ _ => true
  | _ => false

def OnlyInitial (shells : List Shell) : Prop :=
  ∀ shell ∈ shells, shell.initial = false → shell.stage.away = true

def Executes (shells : List Shell) (event : Nat × Choice) : Prop :=
  ∀ shell, shells[event.1]? = some shell →
    (∃ cbin toks rdout after, shell.stage = .child cbin toks rdout after) → event.2.execs = true

section Processes
variable {shell : Shell} {shells : List Shell}

theorem call_main (shell : Shell) (choice : Choice) (toks : List Str) (after : After) :
    (shell.call choice toks after).away = false := by
  unfold Shell.call
  split
  · split <;> rfl
  · rfl

theorem resume_main (shell : Shell) (choice : Choice) (rt : Int) (after : After) :
    (shell.resume choice rt after).initial = shell.initial ∧
      (shell.resume choice rt after).stage.away = false := by
  cases after with
  | loop => exact ⟨rfl, rfl⟩
  | test op number second =>
    simp only [Shell.resume]
    split
    · exact ⟨rfl, call_main shell choice second .loop⟩
    · exact ⟨rfl, rfl⟩

theorem read_main (choice : Choice) (main : shell.stage.away = false) :
    (shell.read choice).initial = shell.initial ∧ (shell.read choice).stage.away = false := by
  unfold Shell.read
  split
  · exact ⟨rfl, rfl⟩
  · split
    · exact ⟨rfl, main⟩
    · exact ⟨rfl, main⟩
    · exact ⟨rfl, rfl⟩
    · exact ⟨rfl, main⟩
    · exact ⟨rfl, main⟩
    · dsimp only
      split
      · exact ⟨rfl, rfl⟩
      · exact ⟨rfl, main⟩
    · exact ⟨rfl, call_main shell choice _ _⟩
    · exact ⟨rfl, rfl⟩

theorem next_main (choice : Choice) (main : shell.stage.away = false) :
    (shell.next choice).initial = shell.initial ∧ (shell.next choice).stage.away = false := by
  unfold Shell.next
  split
  · exact read_main choice main
  · split <;> exact ⟨rfl, rfl⟩
  · rename_i cbin toks rdout after here
    rw [here] at main
    cases main
  · split <;> exact resume_main shell choice _ _
  · exact ⟨rfl, main⟩

/-- A process that is away stays away, unless it is a child whose `execv` fails. -/
theorem next_away (choice : Choice) (away : shell.stage.away = true) :
    (shell.next choice).initial = shell.initial ∧ ((shell.next choice).stage.away = true ↔
        ((∃ cbin toks rdout after, shell.stage = .child cbin toks rdout after) →
          choice.execs = true)) := by
  unfold Shell.next
  cases here : shell.stage with
  | child cbin toks rdout after =>
    dsimp only
    split
    · rename_i execs
      exact ⟨rfl, iff_of_true rfl fun _ => execs⟩
    · rename_i fails
      obtain ⟨initial, main⟩ := resume_main shell choice choice.rt after
      refine ⟨initial, ?_⟩
      rw [main]
      exact iff_of_false Bool.false_ne_true fun all => fails (all ⟨_, _, _, _, rfl⟩)
  | replaced cbin toks =>
    refine ⟨rfl, iff_of_true ?_ ?_⟩
    · rw [here]
      rfl
    · rintro ⟨_, _, _, _, impossible⟩
      cases impossible
  | _ => rw [here] at away; cases away

theorem forked_away (choice : Choice) {copy : Shell} (made : copy ∈ shell.forked choice) :
    copy.initial = false ∧ copy.stage.away = true := by
  unfold Shell.forked at made
  split at made
  · split at made
    · rw [List.mem_singleton.mp made]
      exact ⟨rfl, rfl⟩
    · cases made
  · cases made

def InitialInMain (shells : List Shell) : Prop :=
  ∀ shell ∈ shells, shell.initial = true → shell.stage.away = false

theorem mem_step {event : Nat × Choice} {shell' : Shell} (found : shells[event.1]? = some shell)
    (member : shell' ∈ step shells event) :
    shell' ∈ shells ∨ shell' = shell.next event.2 ∨ shell' ∈ shell.forked event.2 := by
  simp only [step, found, List.mem_append] at member
  rcases member with old | new
  · rcases List.mem_or_eq_of_mem_set old with same | next
    · exact Or.inl same
    · exact Or.inr (Or.inl next)
  · exact Or.inr (Or.inr new)

theorem next_mem_step {event : Nat × Choice} (found : shells[event.1]? = some shell) :
    shell.next event.2 ∈ step shells event := by
  obtain ⟨inside, _⟩ := List.getElem?_eq_some_iff.mp found
  simp only [step, found, List.mem_append]
  exact Or.inl (List.mem_set inside _)

theorem InitialInMain.step (main : InitialInMain shells) (event : Nat × Choice) :
    InitialInMain (step shells event) := by
  intro shell' member initial
  cases found : shells[event.1]? with
  | none =>
    simp only [WishProcesses.step, found] at member
    exact main shell' member initial
  | some shell =>
    have known := List.mem_of_getElem? found
    rcases mem_step found member with old | rfl | new
    · exact main shell' old initial
    · cases away : shell.stage.away with
      | false => exact (next_main event.2 away).2
      | true =>
        have same := (next_away event.2 away).1
        rw [same] at initial
        rw [main shell known initial] at away
        cases away
    · rw [(forked_away event.2 new).1] at initial
      cases initial

/-- A step keeps the children out of main exactly if it is no failing `execv`. -/
theorem onlyInitial_step_iff (main : InitialInMain shells) (only : OnlyInitial shells)
    (event : Nat × Choice) : OnlyInitial (step shells event) ↔ Executes shells event := by
  cases found : shells[event.1]? with
  | none =>
    refine iff_of_true ?_ ?_
    · simp only [step, found]
      exact only
    · intro shell here
      rw [found] at here
      cases here
  | some shell =>
    have known := List.mem_of_getElem? found
    have asked : Executes shells event ↔
        ((∃ cbin toks rdout after, shell.stage = .child cbin toks rdout after) →
          event.2.execs = true) := by
      constructor
      · intro executes
        exact executes shell found
      · intro executes other here
        cases found.symm.trans here
        exact executes
    rw [asked]
    constructor
    · rintro only' ⟨cbin, toks, rdout, after, here⟩
      have away : shell.stage.away = true := by rw [here]; rfl
      have child : shell.initial = false := by
        cases initial : shell.initial with
        | false => rfl
        | true =>
          rw [main shell known initial] at away
          cases away
      obtain ⟨same, stays⟩ := next_away event.2 away
      exact stays.mp (only' _ (next_mem_step found) (same.trans child)) ⟨_, _, _, _, here⟩
    · intro executes shell' member child
      rcases mem_step found member with old | rfl | new
      · exact only shell' old child
      · cases away : shell.stage.away with
        | true => exact (next_away event.2 away).2.mpr executes
        | false =>
          rw [(next_main event.2 away).1] at child
          rw [only shell known child] at away
          cases away
      · exact (forked_away event.2 new).2

/-- In every run, whatever lines are read and whatever the system answers, no
child returns from `runCmd` exactly if every `execv` succeeds. -/
theorem only_one_shell_iff (events : List (Nat × Choice)) :
    Allowed step (fun shells event => OnlyInitial (step shells event)) start events ↔
      Allowed step Executes start events := by
  have main : InitialInMain start := by simp [InitialInMain, start, Stage.away]
  have only : OnlyInitial start := by simp [OnlyInitial, start]
  generalize start = shells at main only ⊢
  induction events generalizing shells with
  | nil => exact Iff.rfl
  | cons event rest ih =>
    have here := onlyInitial_step_iff main only event
    constructor
    · rintro ⟨only', later⟩
      exact ⟨here.mp only', (ih _ (main.step event) only').mp later⟩
    · rintro ⟨executes, later⟩
      have only' := here.mpr executes
      exact ⟨only', (ih _ (main.step event) only').mpr later⟩

end Processes

/-- The answers when there is no program `x`: a fork succeeds, an `execv` fails,
and `rt` holds 5. -/
def missing (line : Option Str) : Choice := ⟨line, none, fun _ => false, true, false, none, 5⟩

def ifLine : Str :=
  [105, 102, 32, 120, 32, 61, 61, 32, 48, 32, 116, 104, 101, 110, 32, 121, 32, 102, 105, 10]

/-- The shell reads an `if` whose command does not exist and forks; the child
fails in `execv` and is at the head of the read loop. -/
theorem missing_command_makes_a_second_shell :
    run step start [(0, missing (some ifLine)), (0, missing none), (1, missing none)] =
        [⟨true, [[47, 98, 105, 110]], .waiting (.test [61, 61] [48] [[121]])⟩,
          ⟨false, [[47, 98, 105, 110]], .reading⟩] ∧
      ¬ OnlyInitial
        (run step start [(0, missing (some ifLine)), (0, missing none), (1, missing none)]) := by
  have result : run step start [(0, missing (some ifLine)), (0, missing none), (1, missing none)] =
      [⟨true, [[47, 98, 105, 110]], .waiting (.test [61, 61] [48] [[121]])⟩,
        ⟨false, [[47, 98, 105, 110]], .reading⟩] := by decide +kernel
  refine ⟨result, ?_⟩
  rw [result]
  intro only
  exact absurd (only ⟨false, [[47, 98, 105, 110]], .reading⟩ (by simp) rfl) (by decide)

end OsProjects.WishProcesses
