import Mathlib.Logic.Relation
import Mathlib.Logic.Function.Basic
import Mathlib.Data.Set.BooleanAlgebra
import Mathlib.Data.Set.Disjoint
import Mathlib.Order.CompletePartialOrder
import Mathlib.Data.Multiset.UnionInter

/-!
Fork-join programs over one shared memory. A program is a finite tree of
single-cell reads and writes; `fork` runs two programs at once and goes on
when both have returned. `Step` interleaves the two branches action by action,
so a whole execution is one schedule. `run` is the schedule that finishes the
spawned branch first. A program whose branches never touch a cell that the
other branch writes has one result, whatever the schedule.
-/

namespace OsProjects.ForkJoin

open Function
universe u v
variable {Loc : Type u} {Val : Type v}

inductive Prog (Loc : Type u) (Val : Type v) where
  | ret
  | read (cell : Loc) (next : Val → Prog Loc Val)
  | write (cell : Loc) (value : Val) (next : Prog Loc Val)
  | fork (spawned main next : Prog Loc Val)

abbrev Mem (Loc : Type u) (Val : Type v) := Loc → Val

variable [DecidableEq Loc]

def run : Prog Loc Val → Mem Loc Val → Mem Loc Val
  | .ret, mem => mem
  | .read cell next, mem => run (next (mem cell)) mem
  | .write cell value next, mem => run next (update mem cell value)
  | .fork spawned main next, mem => run next (run main (run spawned mem))

inductive Step : Prog Loc Val → Mem Loc Val → Prog Loc Val → Mem Loc Val → Prop where
  | read (cell next mem) : Step (.read cell next) mem (next (mem cell)) mem
  | write (cell value next mem) :
      Step (.write cell value next) mem next (update mem cell value)
  | spawned {p p' mem mem'} (q next) (moved : Step p mem p' mem') :
      Step (.fork p q next) mem (.fork p' q next) mem'
  | main {q q' mem mem'} (p next) (moved : Step q mem q' mem') :
      Step (.fork p q next) mem (.fork p q' next) mem'
  | join (next mem) : Step (.fork .ret .ret next) mem next mem

abbrev Config (Loc : Type u) (Val : Type v) := Prog Loc Val × Mem Loc Val

def Next (before after : Config Loc Val) : Prop :=
  Step before.1 before.2 after.1 after.2

def Finishes (prog : Prog Loc Val) (mem result : Mem Loc Val) : Prop :=
  Relation.ReflTransGen Next (prog, mem) (Prog.ret, result)

omit [DecidableEq Loc] in
/-- `Safe touched written prog`: every path reads inside `touched`, writes
inside `written`, and at each fork neither branch writes a cell that the other
one may touch. The bounds hold for all values a read may return. -/
def Safe : Set Loc → Set Loc → Prog Loc Val → Prop
  | _, _, .ret => True
  | touched, written, .read cell next =>
    cell ∈ touched ∧ ∀ value, Safe touched written (next value)
  | touched, written, .write cell _ next =>
    cell ∈ written ∧ Safe touched written next
  | touched, written, .fork p q next =>
    (∃ tp wp tq wq, Safe tp wp p ∧ Safe tq wq q ∧
      (tp ⊆ touched ∧ wp ⊆ written ∧ tq ⊆ touched ∧ wq ⊆ written) ∧
      (Disjoint tp wq ∧ Disjoint wp tq ∧ Disjoint wp wq)) ∧
    Safe touched written next

variable {prog : Prog Loc Val} {touched written : Set Loc}

theorem run_frame  (safe : Safe touched written prog) (mem : Mem Loc Val) (cell : Loc)
    (outside : cell ∉ written) : run prog mem cell = mem cell := by
  induction prog generalizing mem touched written with
  | ret => rfl
  | read _ next ih => exact ih _ (safe.2 _) mem outside
  | write target value next ih =>
    have other : cell ≠ target := fun same => outside (same ▸ safe.1)
    rw [run, ih safe.2 _ outside, update_of_ne other]
  | fork p q next ihP ihQ ih =>
    obtain ⟨⟨tp, wp, tq, wq, safeP, safeQ, inside, _⟩, rest⟩ := safe
    rw [run, ih rest _ outside, ihQ safeQ _ (fun hit => outside (inside.2.2.2 hit)),
      ihP safeP _ (fun hit => outside (inside.2.1 hit))]

theorem run_update (safe : Safe touched written prog) (mem : Mem Loc Val) (cell : Loc) (value : Val)
    (unread : cell ∉ touched) (unwritten : cell ∉ written) :
    run prog (update mem cell value) = update (run prog mem) cell value := by
  induction prog generalizing mem touched written with
  | ret => rfl
  | read target next ih =>
    have other : target ≠ cell := fun same => unread (same ▸ safe.1)
    rw [run, run, update_of_ne other]
    exact ih _ (safe.2 _) mem unread unwritten
  | write target new next ih =>
    have other : target ≠ cell := fun same => unwritten (same ▸ safe.1)
    rw [run, run, update_comm other.symm]
    exact ih safe.2 _ unread unwritten
  | fork p q next ihP ihQ ih =>
    obtain ⟨⟨tp, wp, tq, wq, safeP, safeQ, inside, _⟩, rest⟩ := safe
    simp only [run]
    rw [ihP safeP _ (fun hit => unread (inside.1 hit)) (fun hit => unwritten (inside.2.1 hit)),
      ihQ safeQ _ (fun hit => unread (inside.2.2.1 hit)) (fun hit => unwritten (inside.2.2.2 hit)),
      ih rest _ unread unwritten]

section
variable {touched written : Set Loc} {prog prog' : Prog Loc Val} {mem mem' : Mem Loc Val}

/-- A step of a safe program still happens, with the same continuation, after
a memory change that leaves its touched cells alone. -/
theorem step_transport (change : Mem Loc Val → Mem Loc Val)
    (kept : ∀ m cell, cell ∈ touched → change m cell = m cell)
    (commutes : ∀ m cell value, cell ∈ written →
      change (update m cell value) = update (change m) cell value)
    (safe : Safe touched written prog) (moved : Step prog mem prog' mem') :
    Step prog (change mem) prog' (change mem') := by
  induction moved generalizing touched written with
  | read cell next mem =>
    have same := kept mem cell safe.1
    rw [← same]
    exact Step.read cell next (change mem)
  | write cell value next mem =>
    rw [commutes mem cell value safe.1]
    exact Step.write cell value next (change mem)
  | spawned q next _ ih =>
    obtain ⟨⟨tp, wp, tq, wq, safeP, safeQ, inside, _⟩, _⟩ := safe
    exact Step.spawned q next (ih (fun m cell hit => kept m cell (inside.1 hit))
      (fun m cell value hit => commutes m cell value (inside.2.1 hit)) safeP)
  | main p next _ ih =>
    obtain ⟨⟨tp, wp, tq, wq, safeP, safeQ, inside, _⟩, _⟩ := safe
    exact Step.main p next (ih (fun m cell hit => kept m cell (inside.2.2.1 hit))
      (fun m cell value hit => commutes m cell value (inside.2.2.2 hit)) safeQ)
  | join next mem => exact Step.join next (change mem)

theorem step_safe (safe : Safe touched written prog)
    (moved : Step prog mem prog' mem') : Safe touched written prog' := by
  induction moved generalizing touched written with
  | read => exact safe.2 _
  | write | join => exact safe.2
  | spawned q next _ ih =>
    obtain ⟨⟨tp, wp, tq, wq, safeP, safeQ, shape⟩, rest⟩ := safe
    exact ⟨⟨tp, wp, tq, wq, ih safeP, safeQ, shape⟩, rest⟩
  | main p next _ ih =>
    obtain ⟨⟨tp, wp, tq, wq, safeP, safeQ, shape⟩, rest⟩ := safe
    exact ⟨⟨tp, wp, tq, wq, safeP, ih safeQ, shape⟩, rest⟩

/-- No step of a safe program changes where its serial run ends. A step of the
main branch is moved behind the whole spawned branch, which never sees it. -/
theorem step_run (safe : Safe touched written prog)
    (moved : Step prog mem prog' mem') : run prog' mem' = run prog mem := by
  induction prog generalizing prog' mem mem' touched written with
  | ret => cases moved
  | read | write => cases moved; rfl
  | fork p q next ihP ihQ _ =>
    obtain ⟨⟨tp, wp, tq, wq, safeP, safeQ, inside, apart⟩, rest⟩ := safe
    cases moved with
    | spawned _ _ inner => simp only [run, ihP safeP inner]
    | main _ _ inner =>
      have kept : ∀ m cell, cell ∈ tq → run p m cell = m cell := fun m cell hit =>
        run_frame safeP m cell (fun other => Set.disjoint_left.mp apart.2.1 other hit)
      have commutes : ∀ m cell value, cell ∈ wq →
          run p (update m cell value) = update (run p m) cell value :=
        fun m cell value hit => run_update safeP m cell value
          (fun other => Set.disjoint_left.mp apart.1 other hit)
          (fun other => Set.disjoint_left.mp apart.2.2 other hit)
      have later := step_transport (run p) kept commutes safeQ inner
      simp only [run, ihQ safeQ later]
    | join => simp only [run]
end

theorem finishes_unique  {mem result : Mem Loc Val} (safe : Safe touched written prog)
    (finished : Finishes prog mem result) : result = run prog mem := by
  have keep : ∀ config, Relation.ReflTransGen Next (prog, mem) config →
      Safe touched written config.1 ∧ run config.1 config.2 = run prog mem := by
    intro config steps
    induction steps with
    | refl => exact ⟨safe, rfl⟩
    | tail _ moved ih => exact ⟨step_safe ih.1 moved, (step_run ih.1 moved).trans ih.2⟩
  exact (keep _ finished).2

theorem step_of_ne_ret (prog : Prog Loc Val) (mem : Mem Loc Val)
    (pending : prog ≠ .ret) : ∃ prog' mem', Step prog mem prog' mem' := by
  induction prog generalizing mem with
  | ret => exact absurd rfl pending
  | read cell next => exact ⟨_, _, Step.read cell next mem⟩
  | write cell value next => exact ⟨_, _, Step.write cell value next mem⟩
  | fork p q next ihP ihQ _ =>
    by_cases doneP : p = .ret
    · by_cases doneQ : q = .ret
      · subst doneP doneQ
        exact ⟨_, _, Step.join next mem⟩
      · obtain ⟨q', mem', moved⟩ := ihQ mem doneQ
        exact ⟨_, _, Step.main p next moved⟩
    · obtain ⟨p', mem', moved⟩ := ihP mem doneP
      exact ⟨_, _, Step.spawned q next moved⟩

def Shrinks (after before : Prog Loc Val) : Prop :=
  ∃ mem mem', Step before mem after mem'

/-- Every schedule stops: a step replaces a program by a smaller tree. -/
theorem shrinks_acc (prog : Prog Loc Val) : Acc Shrinks prog := by
  induction prog with
  | ret => exact ⟨_, by rintro _ ⟨_, _, moved⟩; cases moved⟩
  | read cell next ih =>
    refine ⟨_, ?_⟩
    rintro _ ⟨mem, _, moved⟩
    cases moved
    exact ih _
  | write cell value next ih =>
    refine ⟨_, ?_⟩
    rintro _ ⟨mem, _, moved⟩
    cases moved
    exact ih
  | fork p q next ihP ihQ ihNext =>
    induction ihP generalizing q with
    | intro p _ ihLeft =>
      induction ihQ with
      | intro q accQ ihRight =>
        refine ⟨_, ?_⟩
        rintro _ ⟨mem, mem', moved⟩
        cases moved with
        | spawned _ _ inner => exact ihLeft _ ⟨_, _, inner⟩ q ⟨_, accQ⟩
        | main _ _ inner => exact ihRight _ ⟨_, _, inner⟩
        | join => exact ihNext

/-- Any schedule can be completed, so a program that is not stuck half way has
at least one result. -/
theorem finishes_exists (prog : Prog Loc Val) (mem : Mem Loc Val) :
    ∃ result, Finishes prog mem result := by
  induction shrinks_acc prog generalizing mem with
  | intro prog _ ih =>
    by_cases done : prog = .ret
    · subst done
      exact ⟨mem, Relation.ReflTransGen.refl⟩
    · obtain ⟨prog', mem', moved⟩ := step_of_ne_ret prog mem done
      obtain ⟨result, rest⟩ := ih prog' ⟨_, _, moved⟩ mem'
      have first : Next (prog, mem) (prog', mem') := moved
      exact ⟨result, Relation.ReflTransGen.head first rest⟩

/-- Total correctness over all schedules: none runs for ever, one returns, and
every returned memory satisfies `post`. -/
def Ensures (prog : Prog Loc Val) (mem : Mem Loc Val) (post : Mem Loc Val → Prop) : Prop :=
  Acc Shrinks prog ∧ (∃ result, Finishes prog mem result) ∧
    ∀ result, Finishes prog mem result → post result

theorem ensures_iff
    (safe : Safe touched written prog) (mem : Mem Loc Val) (post : Mem Loc Val → Prop) :
    Ensures prog mem post ↔ post (run prog mem) := by
  constructor
  · rintro ⟨_, ⟨result, finished⟩, all⟩
    exact finishes_unique safe finished ▸ all result finished
  · intro holds
    refine ⟨shrinks_acc prog, finishes_exists prog mem, ?_⟩
    intro result finished
    exact (finishes_unique safe finished).symm ▸ holds

omit [DecidableEq Loc] in
/-- `Writes cells prog`: whatever the reads return, `prog` writes exactly `cells`,
each one as often as it occurs there. -/
def Writes : Multiset Loc → Prog Loc Val → Prop
  | cells, .ret => cells = 0
  | cells, .read _ next => ∀ value, Writes cells (next value)
  | cells, .write cell _ next => ∃ rest, cells = cell ::ₘ rest ∧ Writes rest next
  | cells, .fork p q next => ∃ left right rest, cells = left + right + rest ∧
      Writes left p ∧ Writes right q ∧ Writes rest next

/-- A step of any schedule writes one of the cells that are left, or nothing. -/
theorem writes_step {cells : Multiset Loc} {prog prog' : Prog Loc Val} {mem mem' : Mem Loc Val}
    (writes : Writes cells prog) (moved : Step prog mem prog' mem') :
    (Writes cells prog' ∧ mem' = mem) ∨ ∃ cell value rest, cells = cell ::ₘ rest ∧
      Writes rest prog' ∧ mem' = update mem cell value := by
  induction moved generalizing cells with
  | read => exact .inl ⟨writes _, rfl⟩
  | write cell value next mem =>
    obtain ⟨rest, rfl, later⟩ := writes
    exact .inr ⟨cell, value, rest, rfl, later, rfl⟩
  | spawned q next _ ih =>
    obtain ⟨left, right, rest, rfl, first, second, later⟩ := writes
    rcases ih first with ⟨still, same⟩ | ⟨cell, value, left', rfl, still, same⟩
    · exact .inl ⟨⟨left, right, rest, rfl, still, second, later⟩, same⟩
    · refine .inr ⟨cell, value, left' + right + rest, ?_, ?_, same⟩
      · simp only [Multiset.cons_add]
      · exact ⟨left', right, rest, rfl, still, second, later⟩
  | main p next _ ih =>
    obtain ⟨left, right, rest, rfl, first, second, later⟩ := writes
    rcases ih second with ⟨still, same⟩ | ⟨cell, value, right', rfl, still, same⟩
    · exact .inl ⟨⟨left, right, rest, rfl, first, still, later⟩, same⟩
    · refine .inr ⟨cell, value, left + right' + rest, ?_, ?_, same⟩
      · simp only [Multiset.add_cons, Multiset.cons_add]
      · exact ⟨left, right', rest, rfl, first, still, later⟩
  | join next mem =>
    obtain ⟨_, _, rest, rfl, rfl, rfl, later⟩ := writes
    exact .inl ⟨by simpa using later, rfl⟩

theorem writes_frame {cells : Multiset Loc} {mem result : Mem Loc Val}
    (writes : Writes cells prog) (finished : Finishes prog mem result) (cell : Loc)
    (outside : cell ∉ cells) : result cell = mem cell := by
  have keep : ∀ config, Relation.ReflTransGen Next (prog, mem) config →
      ∃ rest, Writes rest config.1 ∧ cell ∉ rest ∧ config.2 cell = mem cell := by
    intro config steps
    induction steps with
    | refl => exact ⟨cells, writes, outside, rfl⟩
    | tail _ moved ih =>
      obtain ⟨rest, still, other, same⟩ := ih
      rcases writes_step still moved with ⟨later, unchanged⟩ | ⟨target, value, rest', rfl, later, set⟩
      · exact ⟨rest, later, other, by rw [unchanged, same]⟩
      · rw [Multiset.mem_cons, not_or] at other
        exact ⟨rest', later, other.2, by rw [set, update_of_ne other.1, same]⟩
  obtain ⟨_, _, _, same⟩ := keep _ finished
  exact same

end OsProjects.ForkJoin
