import OsProjects.ByteStore

/-!
The arguments of an xv6 system call (`syscall.c`). They lie on the user stack,
above the return address. A pointer is checked against the size of the process
and a string up to its terminator. All sums are unsigned.
-/

namespace OsProjects.SystemCalls

open ByteStore

structure User where
  bytes : Bytes
  sz : UInt32
  esp : UInt32

def fetchint (user : User) (addr : UInt32) : Option UInt32 :=
  if addr ≥ user.sz ∨ addr + 4 > user.sz then none else some (wordAt user.bytes addr.toNat)

def fetchLoop (user : User) : (left s : Nat) → Option (List UInt8)
  | 0, _ => none
  | left + 1, s =>
    if user.bytes s = 0 then some []
    else (fetchLoop user left (s + 1)).map (user.bytes s :: ·)

def fetchstr (user : User) (addr : UInt32) : Option (List UInt8) :=
  if addr ≥ user.sz then none else fetchLoop user (user.sz.toNat - addr.toNat) addr.toNat

def argint (user : User) (n : UInt32) : Option UInt32 := fetchint user (user.esp + 4 + 4 * n)

def argptr (user : User) (n size : UInt32) : Option UInt32 :=
  match argint user n with
  | none => none
  | some i => if i ≥ user.sz ∨ i + size > user.sz then none else some i

def argstr (user : User) (n : UInt32) : Option (List UInt8) :=
  match argint user n with
  | none => none
  | some addr => fetchstr user addr

theorem fetchLoop_plain (user : User) (left s : Nat) (text : List UInt8)
    (found : fetchLoop user left s = some text) : 0 ∉ text := by
  induction left generalizing s text with
  | zero => cases found
  | succ left ih =>
    simp only [fetchLoop] at found
    split at found
    · cases found
      simp
    · rename_i other
      obtain ⟨rest, later, rfl⟩ := Option.map_eq_some_iff.mp found
      simp only [List.mem_cons, not_or]
      exact ⟨fun same => other same.symm, ih (s + 1) rest later⟩

theorem argstr_plain {user : User} {n : UInt32} {text : List UInt8}
    (found : argstr user n = some text) : 0 ∉ text := by
  unfold argstr at found
  split at found
  · cases found
  · unfold fetchstr at found
    split at found
    · cases found
    · exact fetchLoop_plain user _ _ text found

end OsProjects.SystemCalls
