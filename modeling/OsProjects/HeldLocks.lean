import Mathlib.Logic.Function.Basic

/-!
Who holds a lock, told from where the processes stand. A lock with one holder is
described by a set of program points; a process that goes from one point to
another keeps the lock, takes it while it is free, or gives it back.
-/

namespace OsProjects.HeldLocks

open Function
variable {Process Point : Type}

def Held (lock : Option Process) (point : Process → Point) (holds : Point → Prop) : Prop :=
  ∀ process, lock = some process ↔ holds (point process)

variable {lock : Option Process} {point : Process → Point} {holds : Point → Prop}

theorem Held.unique (held : Held lock point holds) {first second : Process}
    (one : holds (point first)) (two : holds (point second)) : first = second :=
  Option.some.inj (((held first).mpr one).symm.trans ((held second).mpr two))

theorem Held.free (held : Held lock point holds) (free : lock = none) (process : Process) :
    ¬ holds (point process) := by
  intro inside
  have taken := (held process).mpr inside
  rw [free] at taken
  cases taken

/-- Other processes may move too, as long as they neither take nor drop the lock. -/
theorem Held.congr (held : Held lock point holds) {point' : Process → Point}
    (same : ∀ process, holds (point' process) ↔ holds (point process)) : Held lock point' holds :=
  fun process => (held process).trans (same process).symm

section Moves
variable [DecidableEq Process] {process : Process} {next : Point}

theorem Held.keep (held : Held lock point holds) (same : holds next ↔ holds (point process)) :
    Held lock (update point process next) holds := by
  refine held.congr fun other => ?_
  by_cases here : other = process
  · subst here
    rw [update_self]
    exact same
  · rw [update_of_ne here]

theorem Held.take (held : Held lock point holds) (free : lock = none) (inside : holds next) :
    Held (some process) (update point process next) holds := by
  intro other
  by_cases here : other = process
  · subst here
    rw [update_self]
    exact iff_of_true rfl inside
  · rw [update_of_ne here]
    exact iff_of_false (fun same => here (Option.some.inj same).symm) (held.free free other)

theorem Held.drop (held : Held lock point holds) (inside : holds (point process))
    (outside : ¬ holds next) : Held none (update point process next) holds := by
  intro other
  by_cases here : other = process
  · subst here
    rw [update_self]
    exact iff_of_false (fun same => by cases same) outside
  · rw [update_of_ne here]
    exact iff_of_false (fun same => by cases same) fun too => here (held.unique too inside)

end Moves

end OsProjects.HeldLocks
