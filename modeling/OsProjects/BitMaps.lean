import Mathlib.Data.Nat.Bitwise
import OsProjects.ByteStore

/-!
Bitmaps in a byte store: bit `i` is bit `i % 8` of byte `i / 8`. A bit is set with
`|= m` and cleared with `&= ~m`, where `m` is the mask of the bit.
-/

namespace OsProjects.BitMaps

open ByteStore

def mask (index : Nat) : UInt8 := UInt8.ofNat (2 ^ (index % 8))

def bitAt (bytes : Bytes) (index : Nat) : Bool := bytes (index / 8) &&& mask index ≠ 0

def setBit (bytes : Bytes) (index : Nat) : Bytes :=
  Function.update bytes (index / 8) (bytes (index / 8) ||| mask index)

def clearBit (bytes : Bytes) (index : Nat) : Bytes :=
  Function.update bytes (index / 8) (bytes (index / 8) &&& ~~~ mask index)

theorem toNat_mask (index : Nat) : (mask index).toNat = 2 ^ (index % 8) := by
  have small : 2 ^ (index % 8) < 2 ^ 8 := Nat.pow_lt_pow_right (by decide) (Nat.mod_lt _ (by decide))
  rw [mask, UInt8.toNat_ofNat']
  exact Nat.mod_eq_of_lt small

theorem bitAt_eq (bytes : Bytes) (index : Nat) :
    bitAt bytes index = (bytes (index / 8)).toNat.testBit (index % 8) := by
  have zero : (bytes (index / 8) &&& mask index = 0) ↔
      (bytes (index / 8)).toNat.testBit (index % 8) = false := by
    rw [← UInt8.toNat_inj, UInt8.toNat_and, toNat_mask, Nat.and_two_pow]
    cases (bytes (index / 8)).toNat.testBit (index % 8) <;> simp
  rw [bitAt, Bool.eq_iff_iff, decide_eq_true_iff, ne_eq, zero, Bool.not_eq_false]

theorem same_bit {index other : Nat} (byte : other / 8 = index / 8) :
    decide (index % 8 = other % 8) = (other == index) := by
  rw [Bool.eq_iff_iff, decide_eq_true_iff, beq_iff_eq]
  omega

theorem bitAt_setBit (bytes : Bytes) (index other : Nat) :
    bitAt (setBit bytes index) other = (bitAt bytes other || other == index) := by
  rw [bitAt_eq, bitAt_eq, setBit]
  by_cases byte : other / 8 = index / 8
  · rw [byte, Function.update_self, UInt8.toNat_or, toNat_mask, Nat.testBit_or,
      Nat.testBit_two_pow, same_bit byte]
  · have differ : other ≠ index := fun same => byte (same ▸ rfl)
    rw [Function.update_of_ne byte, beq_false_of_ne differ, Bool.or_false]

theorem bitAt_clearBit (bytes : Bytes) (index other : Nat) :
    bitAt (clearBit bytes index) other = (bitAt bytes other && other != index) := by
  rw [bitAt_eq, bitAt_eq, clearBit]
  by_cases byte : other / 8 = index / 8
  · have inside : other % 8 < 8 := Nat.mod_lt _ (by decide)
    have flipped : (~~~ mask index).toNat = 2 ^ 8 - (2 ^ (index % 8) + 1) := by
      rw [UInt8.toNat_not, toNat_mask, Nat.add_comm, Nat.sub_add_eq]
      rfl
    have small : 2 ^ (index % 8) < 2 ^ 8 :=
      Nat.pow_lt_pow_right (by decide) (Nat.mod_lt _ (by decide))
    rw [byte, Function.update_self, UInt8.toNat_and, flipped, Nat.testBit_and,
      Nat.testBit_two_pow_sub_succ small, Nat.testBit_two_pow, same_bit byte, decide_eq_true inside,
      Bool.true_and]
    rfl
  · have differ : other ≠ index := fun same => byte (same ▸ rfl)
    rw [Function.update_of_ne byte, bne_iff_ne.mpr differ, Bool.and_true]

end OsProjects.BitMaps
