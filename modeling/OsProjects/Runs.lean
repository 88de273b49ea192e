import Mathlib.Data.List.Basic

/-!
Runs of a deterministic machine on a list of events, where each event may only
be taken in a state that allows it, and the invariant rule for them.
-/

namespace OsProjects.Runs

variable {State Event : Type} (step : State → Event → State) (allowed : State → Event → Prop)

def run (start : State) (events : List Event) : State := events.foldl step start

def Allowed : State → List Event → Prop
  | _, [] => True
  | state, event :: rest => allowed state event ∧ Allowed (step state event) rest

instance decidableAllowed [∀ state event, Decidable (allowed state event)] :
    (start : State) → (events : List Event) → Decidable (Allowed step allowed start events)
  | _, [] => isTrue trivial
  | start, event :: rest =>
    have := decidableAllowed (step start event) rest
    inferInstanceAs (Decidable (_ ∧ _))

variable {step allowed}

@[simp] theorem run_nil (start : State) : run step start [] = start := rfl

@[simp] theorem run_cons (start : State) (event : Event) (rest : List Event) :
    run step start (event :: rest) = run step (step start event) rest := rfl

theorem run_append (start : State) (first second : List Event) :
    run step start (first ++ second) = run step (run step start first) second :=
  List.foldl_append

variable {start : State}

theorem allowed_append {first second : List Event} :
    Allowed step allowed start (first ++ second) ↔
      Allowed step allowed start first ∧ Allowed step allowed (run step start first) second := by
  induction first generalizing start with
  | nil => simp [Allowed]
  | cons event rest ih => simp [Allowed, ih, and_assoc]

variable {events : List Event}

theorem allowed_of_mem {other : State → Event → Prop}
    (weaker : ∀ event ∈ events, ∀ state, allowed state event → other state event)
    (all : Allowed step allowed start events) : Allowed step other start events := by
  induction events generalizing start with
  | nil => trivial
  | cons event rest ih =>
    exact ⟨weaker event (.head _) _ all.1,
      ih (fun event later => weaker event (.tail _ later)) all.2⟩

theorem allowed_mono {other : State → Event → Prop}
    (weaker : ∀ state event, allowed state event → other state event)
    (all : Allowed step allowed start events) : Allowed step other start events :=
  allowed_of_mem (fun event _ state => weaker state event) all

theorem allowed_all (start : State) (events : List Event) :
    Allowed step (fun _ _ => True) start events := by
  induction events generalizing start with
  | nil => trivial
  | cons event rest ih => exact ⟨trivial, ih (step start event)⟩

/-- What holds at the start and is kept by every allowed step holds at the end. -/
theorem invariant (holds : State → Prop) (initial : holds start)
    (keeps : ∀ state event, holds state → allowed state event → holds (step state event))
    (all : Allowed step allowed start events) : holds (run step start events) := by
  induction events generalizing start with
  | nil => exact initial
  | cons event rest ih => exact ih (keeps _ _ initial all.1) all.2

/-- A property is seen in every state of a run iff every event is `fine`: such
events keep an invariant that shows it, and after any other it is not seen. -/
theorem always_iff (holds good : State → Prop) {fine : State → Event → Prop}
    (shows : ∀ state, holds state → good state)
    (keeps : ∀ state event, holds state → allowed state event → fine state event →
      holds (step state event))
    (breaks : ∀ state event, holds state → allowed state event → good (step state event) →
      fine state event) (initial : holds start) (all : Allowed step allowed start events) :
    (∀ front, front <+: events → good (run step start front)) ↔ Allowed step fine start events := by
  induction events generalizing start with
  | nil =>
    refine iff_of_true ?_ trivial
    intro front whole
    rw [List.prefix_nil.mp whole]
    exact shows start initial
  | cons event rest ih =>
    constructor
    · intro always
      have next : good (step start event) := always [event] (List.prefix_append [event] rest)
      have here := breaks _ _ initial all.1 next
      refine ⟨here, (ih (keeps _ _ initial all.1 here) all.2).mp ?_⟩
      intro front whole
      exact always (event :: front) (List.cons_prefix_cons.mpr ⟨rfl, whole⟩)
    · rintro ⟨here, later⟩ front whole
      cases front with
      | nil => exact shows start initial
      | cons first front =>
        obtain ⟨rfl, inner⟩ := List.cons_prefix_cons.mp whole
        exact (ih (keeps _ _ initial all.1 here) all.2).mpr later front inner

section Recording
variable {Memo : Type} {record : State → Event → Memo → Memo}

def recorded (step : State → Event → State) (record : State → Event → Memo → Memo) :
    State × Memo → Event → State × Memo :=
  fun state event => (step state.1 event, record state.1 event state.2)

theorem run_recorded (start : State) (memo : Memo) (events : List Event) :
    (run (recorded step record) (start, memo) events).1 = run step start events := by
  induction events generalizing start memo with
  | nil => rfl
  | cons event rest ih => exact ih _ _

theorem allowed_recorded {memo : Memo} :
    Allowed (recorded step record) (fun state event => allowed state.1 event) (start, memo) events ↔
      Allowed step allowed start events := by
  induction events generalizing start memo with
  | nil => exact Iff.rfl
  | cons event rest ih => exact and_congr_right fun _ => ih
end Recording

end OsProjects.Runs
