import OsProjects.ByteStore

/-!
Arrays of 32-bit words in a byte store: a loop that stores one word after
another, the array read back, and what the loop leaves alone.
-/

namespace OsProjects.WordArrays

open ByteStore

def wordsAt (store : Bytes) (addr count : Nat) : List UInt32 :=
  (List.range count).map fun index => wordAt store (addr + 4 * index)

def putWords (store : Bytes) (addr : Nat) : List UInt32 → Bytes
  | [] => store
  | word :: rest => putWords (putWord store addr word) (addr + 4) rest

theorem putWords_outside (store : Bytes) (addr index : Nat) (words : List UInt32)
    (apart : index < addr ∨ addr + 4 * words.length ≤ index) :
    putWords store addr words index = store index := by
  induction words generalizing store addr with
  | nil => rfl
  | cons word rest ih =>
    rw [List.length_cons] at apart
    rw [putWords, ih _ _ (by omega), putWord_outside (by omega)]

theorem wordAt_putWords_outside (store : Bytes) (addr target : Nat) (words : List UInt32)
    (apart : target + 4 ≤ addr ∨ addr + 4 * words.length ≤ target) :
    wordAt (putWords store addr words) target = wordAt store target := by
  apply wordAt_congr
  intro index small
  exact putWords_outside _ _ _ _ (by omega)

theorem wordAt_putWords (store : Bytes) (addr index : Nat) (words : List UInt32)
    (inside : index < words.length) :
    wordAt (putWords store addr words) (addr + 4 * index) = words[index] := by
  induction words generalizing store addr index with
  | nil => exact absurd inside (Nat.not_lt_zero _)
  | cons word rest ih =>
    cases index with
    | zero =>
      change wordAt (putWords (putWord store addr word) (addr + 4) rest) addr = word
      rw [wordAt_putWords_outside _ _ _ _ (Or.inl (Nat.le_refl _)), wordAt_putWord_same]
    | succ index =>
      have place : addr + 4 * (index + 1) = addr + 4 + 4 * index := by omega
      rw [putWords, place, ih _ _ _ (Nat.lt_of_succ_lt_succ inside)]
      rfl

@[simp] theorem length_wordsAt (store : Bytes) (addr count : Nat) :
    (wordsAt store addr count).length = count := by
  simp [wordsAt]

theorem wordsAt_putWords (store : Bytes) (addr : Nat) (words : List UInt32) :
    wordsAt (putWords store addr words) addr words.length = words := by
  apply List.ext_getElem (length_wordsAt _ _ _)
  intro index _ inside
  simp only [wordsAt, List.getElem_map, List.getElem_range]
  exact wordAt_putWords store addr index words inside

end OsProjects.WordArrays
