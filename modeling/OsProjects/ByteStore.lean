import Mathlib.Data.Nat.Bitwise
import Mathlib.Logic.Function.Basic

/-!
Bytes, little-endian 32-bit words, NUL-terminated strings and byte-addressed
stores. A store is a total function; `overwrite` puts `count` bytes of a source
at an address and leaves the rest. Buffers are stores of their own, so a
transfer is a source read at offset zero.
-/

namespace OsProjects.ByteStore

abbrev Bytes := Nat → UInt8

def byteAt (word : UInt32) (index : Nat) : UInt8 :=
  UInt8.ofNat (word.toNat / 256 ^ index)

def wordAt (bytes : Bytes) (addr : Nat) : UInt32 :=
  UInt32.ofNat ((bytes addr).toNat + 256 * (bytes (addr + 1)).toNat +
    65536 * (bytes (addr + 2)).toNat + 16777216 * (bytes (addr + 3)).toNat)

def signed (word : UInt32) : Int :=
  if word.toNat < 2147483648 then word.toNat else word.toNat - 4294967296

def wrap (value : Int) : UInt32 :=
  UInt32.ofNat (value % 4294967296).toNat

theorem wordAt_of_bytes (bytes : Bytes) (addr : Nat) (word : UInt32)
    (holds : ∀ index < 4, bytes (addr + index) = byteAt word index) : wordAt bytes addr = word := by
  have h0 := holds 0 (by decide)
  have h1 := holds 1 (by decide)
  have h2 := holds 2 (by decide)
  have h3 := holds 3 (by decide)
  rw [Nat.add_zero] at h0
  apply UInt32.toNat_inj.mp
  have bound := word.toNat_lt
  simp only [wordAt, h0, h1, h2, h3, byteAt, UInt32.toNat_ofNat', UInt8.toNat_ofNat',
    Nat.pow_zero, Nat.pow_one]
  omega

theorem byteAt_wordAt (bytes : Bytes) (addr index : Nat) (small : index < 4) :
    byteAt (wordAt bytes addr) index = bytes (addr + index) := by
  have b0 := (bytes addr).toNat_lt
  have b1 := (bytes (addr + 1)).toNat_lt
  have b2 := (bytes (addr + 2)).toNat_lt
  have b3 := (bytes (addr + 3)).toNat_lt
  apply UInt8.toNat_inj.mp
  have cases : index = 0 ∨ index = 1 ∨ index = 2 ∨ index = 3 := by omega
  rcases cases with rfl | rfl | rfl | rfl <;>
    simp only [wordAt, byteAt, UInt32.toNat_ofNat', UInt8.toNat_ofNat', Nat.add_zero,
      Nat.pow_zero, Nat.pow_one] <;> omega

theorem wordAt_congr (bytes bytes' : Bytes) (addr addr' : Nat)
    (same : ∀ index < 4, bytes (addr + index) = bytes' (addr' + index)) :
    wordAt bytes addr = wordAt bytes' addr' := by
  have h0 := same 0 (by decide)
  have h1 := same 1 (by decide)
  have h2 := same 2 (by decide)
  have h3 := same 3 (by decide)
  simp only [Nat.add_zero] at h0
  simp only [wordAt, h0, h1, h2, h3]

theorem signed_wrap (value : Int) (low : -2147483648 ≤ value) (high : value < 2147483648) :
    signed (wrap value) = value := by
  simp only [signed, wrap, UInt32.toNat_ofNat']
  split <;> omega

@[simp] theorem toNat_wrap_natCast (value : Nat) (small : value < 4294967296) :
    (wrap (value : Int)).toNat = value := by
  simp only [wrap, UInt32.toNat_ofNat']
  omega

section Strings

def streq (bytes : Bytes) : Nat → List UInt8 → Bool
  | addr, [] => bytes addr == 0
  | addr, char :: rest => bytes addr == char && streq bytes (addr + 1) rest

def strcpy (bytes : Bytes) (addr : Nat) (text : List UInt8) : Bytes :=
  fun index => if addr ≤ index ∧ index ≤ addr + text.length
    then (text[index - addr]?).getD 0 else bytes index

theorem streq_iff (bytes : Bytes) (addr : Nat) (text : List UInt8) :
    streq bytes addr text = true ↔
      ∀ index ≤ text.length, bytes (addr + index) = (text[index]?).getD 0 := by
  induction text generalizing addr with
  | nil => simp [streq]
  | cons char rest ih =>
    simp only [streq, Bool.and_eq_true, beq_iff_eq, ih, List.length_cons]
    constructor
    · rintro ⟨first, later⟩ index bound
      cases index with
      | zero => simpa using first
      | succ index =>
        have found := later index (by omega)
        simpa [Nat.add_assoc, Nat.add_comm 1 index] using found
    · intro all
      refine ⟨by simpa using all 0 (by omega), ?_⟩
      intro index bound
      have found := all (index + 1) (by omega)
      simpa [Nat.add_assoc, Nat.add_comm 1 index] using found

theorem streq_strcpy (bytes : Bytes) (addr : Nat) (text : List UInt8) :
    streq (strcpy bytes addr text) addr text = true := by
  rw [streq_iff]
  intro index bound
  simp [strcpy, bound]

theorem streq_congr (bytes bytes' : Bytes) (addr addr' : Nat) (text : List UInt8)
    (same : ∀ index ≤ text.length, bytes (addr + index) = bytes' (addr' + index)) :
    streq bytes addr text = streq bytes' addr' text := by
  rw [Bool.eq_iff_iff, streq_iff, streq_iff]
  exact forall₂_congr fun index bound => by rw [same index bound]

/-- Two NUL-free texts that both match one buffer are the same text. -/
theorem streq_unique (bytes : Bytes) (addr : Nat) (left right : List UInt8)
    (leftPlain : 0 ∉ left) (rightPlain : 0 ∉ right)
    (leftHit : streq bytes addr left = true) (rightHit : streq bytes addr right = true) :
    left = right := by
  induction left generalizing addr right with
  | nil =>
    cases right with
    | nil => rfl
    | cons char rest =>
      simp only [streq, Bool.and_eq_true, beq_iff_eq] at leftHit rightHit
      simp [← rightHit.1, leftHit] at rightPlain
  | cons char rest ih =>
    cases right with
    | nil =>
      simp only [streq, Bool.and_eq_true, beq_iff_eq] at leftHit rightHit
      simp [← leftHit.1, rightHit] at leftPlain
    | cons char' rest' =>
      simp only [streq, Bool.and_eq_true, beq_iff_eq] at leftHit rightHit
      simp only [List.mem_cons, not_or] at leftPlain rightPlain
      have tail := ih (addr + 1) rest' leftPlain.2 rightPlain.2 leftHit.2 rightHit.2
      rw [← leftHit.1, ← rightHit.1, tail]
end Strings

section Stores

def overwrite (store : Bytes) (addr count : Nat) (source : Bytes) : Bytes :=
  fun index => if addr ≤ index ∧ index < addr + count then source (index - addr) else store index

theorem overwrite_inside {store source : Bytes} {addr count index : Nat}
    (low : addr ≤ index) (high : index < addr + count) :
    overwrite store addr count source index = source (index - addr) := by
  simp [overwrite, low, high]

theorem overwrite_outside {store source : Bytes} {addr count index : Nat}
    (apart : index < addr ∨ addr + count ≤ index) :
    overwrite store addr count source index = store index := by
  have miss : ¬ (addr ≤ index ∧ index < addr + count) := by omega
  simp [overwrite, miss]

theorem wordAt_overwrite_outside {store source : Bytes} {addr count target : Nat}
    (apart : target + 4 ≤ addr ∨ addr + count ≤ target) :
    wordAt (overwrite store addr count source) target = wordAt store target := by
  apply wordAt_congr
  intro index small
  exact overwrite_outside (by omega)

theorem wordAt_overwrite_inside {store source : Bytes} {addr count target : Nat}
    (low : addr ≤ target) (high : target + 4 ≤ addr + count) :
    wordAt (overwrite store addr count source) target = wordAt source (target - addr) := by
  apply wordAt_congr
  intro index small
  rw [overwrite_inside (by omega) (by omega)]
  congr 1
  omega

def putWord (store : Bytes) (addr : Nat) (word : UInt32) : Bytes :=
  overwrite store addr 4 (byteAt word)

theorem putWord_outside {store : Bytes} {addr index : Nat} {word : UInt32}
    (apart : index < addr ∨ addr + 4 ≤ index) : putWord store addr word index = store index :=
  overwrite_outside apart

@[simp] theorem wordAt_putWord_same (store : Bytes) (addr : Nat) (word : UInt32) :
    wordAt (putWord store addr word) addr = word := by
  apply wordAt_of_bytes
  intro index small
  rw [putWord, overwrite_inside (by omega) (by omega), Nat.add_sub_cancel_left]

theorem wordAt_putWord_other {store : Bytes} {addr target : Nat} {word : UInt32}
    (apart : target + 4 ≤ addr ∨ addr + 4 ≤ target) :
    wordAt (putWord store addr word) target = wordAt store target :=
  wordAt_overwrite_outside apart
end Stores

end OsProjects.ByteStore
