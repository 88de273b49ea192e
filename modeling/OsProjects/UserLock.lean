import OsProjects.Runs
import Mathlib.Logic.Function.Basic

/-!
`lock_acquire`, `lock_release` and `lock_init` of the thread library
(`xv6-thread.patch`, `ulib.c`), for any number of threads and one memory access
at a time. Only the `xchg` is atomic; the look at the flag and the store that
may follow it are separate steps, in both functions.
-/

namespace OsProjects.UserLock

open Runs

inductive Control where
  /-- not in one of the two functions -/
  | idle
  /-- spinning in `while(xchg(&lock->flag, 1) != 0)` -/
  | exchange
  /-- at `if(lock->flag == 0)` -/
  | check
  /-- at `lock->flag = 1` -/
  | set
  /-- at `if(lock->flag == 1)` of `lock_release` -/
  | test
  /-- at `lock->flag = 0` of `lock_release` -/
  | clear
  deriving DecidableEq

/-- The lock word, the program points, and which threads have returned from
`lock_acquire` without having finished `lock_release` since. -/
structure Lock (Thread : Type) where
  flag : UInt32
  control : Thread → Control
  held : Thread → Bool

inductive Move (Thread : Type) where
  /-- calls `lock_acquire` -/
  | acquire (thread : Thread)
  /-- calls `lock_release` -/
  | release (thread : Thread)
  /-- makes its next memory access -/
  | proceed (thread : Thread)

section Steps
variable {Thread : Type}

def lockInit (garbage : UInt32) : Lock Thread :=
  let before : Lock Thread := ⟨garbage, fun _ => .idle, fun _ => false⟩
  { before with flag := 0 }

variable [DecidableEq Thread]

def Lock.goto (lock : Lock Thread) (thread : Thread) (point : Control) : Lock Thread :=
  { lock with control := Function.update lock.control thread point }

def Lock.leave (lock : Lock Thread) (thread : Thread) (held : Bool) : Lock Thread :=
  { lock.goto thread .idle with held := Function.update lock.held thread held }

/-- The next memory access of a thread. A thread that had the lock loses it with
the last access of `lock_release`. -/
def access (lock : Lock Thread) (thread : Thread) : Lock Thread :=
  match lock.control thread with
  | .idle => lock
  | .exchange =>
    -- a failed exchange stores 1 as well
    if lock.flag ≠ 0 then { lock with flag := 1 }
    else { lock.goto thread .check with flag := 1 }
  | .check => if lock.flag = 0 then lock.goto thread .set else lock.leave thread true
  | .set => { lock.leave thread true with flag := 1 }
  | .test => if lock.flag = 1 then lock.goto thread .clear else lock.leave thread false
  | .clear => { lock.leave thread false with flag := 0 }

def act (lock : Lock Thread) : Move Thread → Lock Thread
  | .acquire thread => lock.goto thread .exchange
  | .release thread => lock.goto thread .test
  | .proceed thread => access lock thread

def Disciplined (lock : Lock Thread) : Move Thread → Prop
  | .acquire thread => lock.control thread = .idle
  | .release thread => lock.control thread = .idle ∧ lock.held thread = true
  | .proceed _ => True

end Steps

section Safety
variable {Thread : Type} {lock lock' : Lock Thread} {thread : Thread}

def Lock.Owns (lock : Lock Thread) (thread : Thread) : Prop :=
  lock.held thread = true ∨ lock.control thread = .check ∨ lock.control thread = .set

structure Lock.Safe (lock : Lock Thread) : Prop where
  one : ∀ t u, lock.Owns t → lock.Owns u → t = u
  flag : ∀ t, lock.Owns t → lock.flag = 1
  releasing : ∀ t, lock.control t = .test ∨ lock.control t = .clear → lock.held t = true

theorem lockInit_safe (garbage : UInt32) : (lockInit garbage : Lock Thread).Safe := by
  constructor <;> simp [lockInit, Lock.Owns]

def Others (thread : Thread) (lock lock' : Lock Thread) : Prop :=
  ∀ t, t ≠ thread → lock'.control t = lock.control t ∧ lock'.held t = lock.held t

theorem Others.owns (others : Others thread lock lock') {t : Thread} (other : t ≠ thread) :
    lock'.Owns t ↔ lock.Owns t := by
  obtain ⟨control, held⟩ := others t other
  simp only [Lock.Owns, control, held]

theorem Others.releasing (others : Others thread lock lock') (safe : lock.Safe)
    (self : lock'.control thread = .test ∨ lock'.control thread = .clear →
      lock'.held thread = true) (t : Thread) :
    lock'.control t = .test ∨ lock'.control t = .clear → lock'.held t = true := by
  by_cases same : t = thread
  · rw [same]
    exact self
  · obtain ⟨control, held⟩ := others t same
    rw [control, held]
    exact safe.releasing t

/-- A thread that owns the lock before and after its step, or does not own it
after, leaves the flag up. -/
theorem Lock.Safe.keep (safe : lock.Safe) (others : Others thread lock lock')
    (owner : lock'.Owns thread → lock.Owns thread) (flag : lock.flag = 1 → lock'.flag = 1)
    (self : lock'.control thread = .test ∨ lock'.control thread = .clear →
      lock'.held thread = true) : lock'.Safe := by
  have before : ∀ t, lock'.Owns t → lock.Owns t := by
    intro t owns
    by_cases same : t = thread
    · rw [same] at owns ⊢
      exact owner owns
    · exact (others.owns same).mp owns
  exact ⟨fun t u first second => safe.one t u (before t first) (before u second),
    fun t owns => flag (safe.flag t (before t owns)), others.releasing safe self⟩

/-- The exchange is won while the flag is down, so nobody owns the lock. -/
theorem Lock.Safe.win (safe : lock.Safe) (others : Others thread lock lock')
    (down : lock.flag = 0) (up : lock'.flag = 1)
    (self : lock'.control thread = .test ∨ lock'.control thread = .clear →
      lock'.held thread = true) : lock'.Safe := by
  have free : ∀ t, ¬ lock.Owns t := by
    intro t owns
    have set := safe.flag t owns
    rw [down] at set
    exact absurd set (by decide)
  have winner : ∀ t, lock'.Owns t → t = thread := by
    intro t owns
    by_contra other
    exact free t ((others.owns other).mp owns)
  exact ⟨fun t u first second => (winner t first).trans (winner u second).symm, fun _ _ => up,
    others.releasing safe self⟩

theorem Lock.Safe.release (safe : lock.Safe) (others : Others thread lock lock')
    (owned : lock.Owns thread) (given : ¬ lock'.Owns thread)
    (self : lock'.control thread = .test ∨ lock'.control thread = .clear →
      lock'.held thread = true) : lock'.Safe := by
  have free : ∀ t, ¬ lock'.Owns t := by
    intro t owns
    by_cases same : t = thread
    · exact given (same ▸ owns)
    · exact same (safe.one t thread ((others.owns same).mp owns) owned)
  exact ⟨fun t _ owns _ => (free t owns).elim, fun t owns => (free t owns).elim,
    others.releasing safe self⟩

end Safety

section Mutual
variable {Thread : Type} [DecidableEq Thread] {lock : Lock Thread}

theorem goto_others (lock : Lock Thread) (thread : Thread) (point : Control) (flag : UInt32) :
    Others thread lock { lock.goto thread point with flag } := by
  intro t other
  simp [Lock.goto, other]

theorem leave_others (lock : Lock Thread) (thread : Thread) (held : Bool) (flag : UInt32) :
    Others thread lock { lock.leave thread held with flag } := by
  intro t other
  simp [Lock.leave, Lock.goto, other]

theorem access_safe (safe : lock.Safe) (thread : Thread) : (access lock thread).Safe := by
  unfold access
  cases point : lock.control thread with
  | idle => exact safe
  | exchange =>
    dsimp only
    split
    · have others : Others thread lock { lock with flag := 1 } := fun _ _ => ⟨rfl, rfl⟩
      exact safe.keep others id (fun _ => rfl) (by simp [point])
    · -- the flag was down, so nobody owned the lock
      rename_i down
      exact safe.win (goto_others lock thread .check 1) (not_not.mp down) rfl (by simp [Lock.goto])
  | check =>
    have owned : lock.Owns thread := Or.inr (Or.inl point)
    dsimp only
    split
    · exact safe.keep (goto_others lock thread .set lock.flag) (fun _ => owned) id
        (by simp [Lock.goto])
    · exact safe.keep (leave_others lock thread true lock.flag) (fun _ => owned) id
        (by simp [Lock.leave, Lock.goto])
  | set =>
    have owned : lock.Owns thread := Or.inr (Or.inr point)
    exact safe.keep (leave_others lock thread true 1) (fun _ => owned) (fun _ => rfl)
      (by simp [Lock.leave, Lock.goto])
  | test =>
    have held := safe.releasing thread (Or.inl point)
    dsimp only
    split
    · exact safe.keep (goto_others lock thread .clear lock.flag) (fun _ => Or.inl held) id
        (by simp [Lock.goto, held])
    · exact safe.release (leave_others lock thread false lock.flag) (Or.inl held)
        (by simp [Lock.Owns, Lock.leave, Lock.goto]) (by simp [Lock.leave, Lock.goto])
  | clear =>
    have held := safe.releasing thread (Or.inr point)
    exact safe.release (leave_others lock thread false 0) (Or.inl held)
      (by simp [Lock.Owns, Lock.leave, Lock.goto]) (by simp [Lock.leave, Lock.goto])

theorem act_safe (safe : lock.Safe) {move : Move Thread} (disciplined : Disciplined lock move) :
    (act lock move).Safe := by
  cases move with
  | acquire thread =>
    refine safe.keep (goto_others lock thread .exchange lock.flag) ?_ id ?_
    · intro owns
      simp only [act, Lock.Owns, Lock.goto, Function.update_self] at owns
      rcases owns with held | impossible | impossible
      · exact Or.inl held
      · cases impossible
      · cases impossible
    · simp [act, Lock.goto]
  | release thread =>
    obtain ⟨_, held⟩ := disciplined
    exact safe.keep (goto_others lock thread .test lock.flag) (fun _ => Or.inl held) id
      (fun _ => held)
  | proceed thread => exact access_safe safe thread

/-- However the accesses of the threads are interleaved, two threads are never
both between their return from `lock_acquire` and the last access of the
`lock_release` that follows. -/
theorem one_thread_holds_the_lock (garbage : UInt32) {moves : List (Move Thread)}
    (all : Allowed act Disciplined (lockInit garbage) moves) {t u : Thread}
    (first : (run act (lockInit garbage) moves).held t = true)
    (second : (run act (lockInit garbage) moves).held u = true) : t = u := by
  have safe : (run act (lockInit garbage) moves).Safe :=
    invariant Lock.Safe (lockInit_safe garbage)
      (fun _ _ safe disciplined => act_safe safe disciplined) all
  exact safe.one t u (Or.inl first) (Or.inl second)

def contended : List (Move Bool) :=
  [.acquire true, .acquire false, .proceed true, .proceed false, .proceed true, .proceed false]

theorem contended_lock_is_held_once :
    Allowed act Disciplined (lockInit 7) contended ∧
      (run act (lockInit 7) contended).held true = true ∧
      ∀ t, (run act (lockInit 7) contended).held t = true → t = true := by
  have all : Allowed act Disciplined (lockInit 7) contended := by
    simp [contended, Allowed, Disciplined, act, lockInit, Lock.goto]
  have held : (run act (lockInit 7) contended).held true = true := by decide
  exact ⟨all, held, fun t holds => one_thread_holds_the_lock 7 all holds held⟩

end Mutual

end OsProjects.UserLock
