import OsProjects.MkfsImage

/-!
The entries of directory blocks. A block `freshDir` wrote answers to `.` and
`..` only, an entry `newEntry` wrote to its own name only, a cleared entry to
none. What a lookup finds depends on the slots it scans, and a write to one slot
changes the answer of that slot alone.
-/

namespace OsProjects.DirectoryBlocks

open ByteStore UfsLayout Volume VolumeSound

structure FileName (name : List UInt8) : Prop where
  nonempty : name ≠ []
  short : name.length ≤ 27
  plain : 0 ∉ name

def dot : List UInt8 := [46]

def dotDot : List UInt8 := [46, 46]

section FreshBlocks
variable (junk : Bytes) (self parent : UInt32)

theorem freshEntries_outside (block : Bytes) (count index : Nat) (before : index < 92) :
    freshEntries block count index = block index := by
  induction count with
  | zero => rfl
  | succ count ih => rw [freshEntries, putWord_outside (by omega), ih]

theorem freshEntries_inum (block : Bytes) (count j : Nat) (low : 2 ≤ j) (high : j < count + 2) :
    wordAt (freshEntries block count) (32 * j + 28) = minusOne := by
  induction count with
  | zero => omega
  | succ count ih =>
    rw [freshEntries]
    by_cases last : j = count + 2
    · rw [last, wordAt_putWord_same]
    · rw [wordAt_putWord_other (by omega)]
      exact ih (by omega)

theorem freshEntries_name (block : Bytes) (count j : Nat) :
    freshEntries block count (32 * j) = block (32 * j) := by
  induction count with
  | zero => rfl
  | succ count ih => rw [freshEntries, putWord_outside (by omega), ih]

theorem freshDir_unused (j : Nat) (low : 2 ≤ j) (high : j < 128) :
    wordAt (freshDir junk self parent) (32 * j + 28) = minusOne :=
  freshEntries_inum _ 126 j low high

theorem strcpy_outside {bytes : Bytes} {addr index : Nat} {text : List UInt8}
    (apart : index < addr ∨ addr + text.length < index) :
    strcpy bytes addr text index = bytes index := by
  have miss : ¬ (addr ≤ index ∧ index ≤ addr + text.length) := by omega
  simp [strcpy, miss]

theorem freshDir_self : wordAt (freshDir junk self parent) 28 = self := by
  have inside : wordAt (freshDir junk self parent) 28 =
      wordAt (putWord (strcpy junk 0 [46]) 28 self) 28 := by
    apply wordAt_congr
    intro index small
    rw [freshDir, freshEntries_outside _ _ _ (by omega), putWord_outside (by omega),
      strcpy_outside (by left; omega)]
  rw [inside, wordAt_putWord_same]

theorem freshDir_parent : wordAt (freshDir junk self parent) 60 = parent := by
  have inside : wordAt (freshDir junk self parent) 60 =
      wordAt (putWord (strcpy (putWord (strcpy junk 0 [46]) 28 self) 32 [46, 46]) 60 parent)
        60 := by
    apply wordAt_congr
    intro index small
    rw [freshDir, freshEntries_outside _ _ _ (by omega)]
  rw [inside, wordAt_putWord_same]

theorem freshDir_dot : streq (freshDir junk self parent) 0 dot = true := by
  rw [← streq_strcpy junk 0 dot]
  apply streq_congr
  intro index small
  simp only [dot, List.length_singleton] at small
  rw [freshDir, freshEntries_outside _ _ _ (by omega), putWord_outside (by omega),
    strcpy_outside (by left; omega), putWord_outside (by omega)]
  rfl

theorem freshDir_dotDot : streq (freshDir junk self parent) 32 dotDot = true := by
  rw [← streq_strcpy (putWord (strcpy junk 0 [46]) 28 self) 32 dotDot]
  apply streq_congr
  intro index small
  simp only [dotDot, List.length_cons, List.length_nil] at small
  rw [freshDir, freshEntries_outside _ _ _ (by omega), putWord_outside (by omega)]
  rfl
end FreshBlocks

theorem streq_blank {bytes : Bytes} {name : List UInt8} (blank : bytes 0 = 0)
    (named : FileName name) : streq bytes 0 name = false := by
  by_contra found
  simp only [Bool.not_eq_false] at found
  have empty : streq bytes 0 [] = true := by simp [streq, blank]
  exact named.nonempty (streq_unique _ 0 name [] named.plain (by simp) found empty)

theorem dot_plain : 0 ∉ dot := by decide

theorem dotDot_plain : 0 ∉ dotDot := by decide

theorem dot_fileName : FileName dot := ⟨by decide, by decide, by decide⟩

theorem dotDot_fileName : FileName dotDot := ⟨by decide, by decide, by decide⟩

section Entries
variable {v : Vol} {b j : Nat} {name other : List UInt8}

theorem hit_unique (plain : 0 ∉ name) (plain' : 0 ∉ other) (hit : v.hit name b j = true)
    (hit' : v.hit other b j = true) : name = other := by
  simp only [Vol.hit, Bool.and_eq_true] at hit hit'
  exact streq_unique _ 0 name other plain plain' hit.1 hit'.1

theorem hit_unused (unused : v.entryInum b j = minusOne) : v.hit name b j = false := by
  simp [Vol.hit, unused]

theorem hit_live (hit : v.hit name b j = true) : v.entryInum b j ≠ minusOne := by
  intro unused
  rw [hit_unused unused] at hit
  cases hit

theorem hit_congr {v' : Vol} {b' j' : Nat} (short : name.length ≤ 28)
    (same : ∀ index < 32, v'.entry b' j' index = v.entry b j index) :
    v'.hit name b' j' = v.hit name b j := by
  rw [Vol.hit, Vol.hit, Vol.entryInum, Vol.entryInum]
  congr 1
  · apply streq_congr
    intro index bound
    simpa using same index (by omega)
  · congr 1
    apply wordAt_congr
    intro index small
    exact same _ (by omega)

theorem entryInum_congr {v' : Vol} {b' j' : Nat}
    (same : ∀ index < 32, v'.entry b' j' index = v.entry b j index) :
    v'.entryInum b' j' = v.entryInum b j := by
  rw [Vol.entryInum, Vol.entryInum]
  apply wordAt_congr
  intro index small
  exact same _ (by omega)

theorem newEntry_inum (junk : Bytes) (n : Nat) (short : name.length ≤ 27) :
    wordAt (Vol.newEntry junk n name) 28 = UInt32.ofNat n := by
  have inside : wordAt (Vol.newEntry junk n name) 28 =
      wordAt (putWord junk 28 (UInt32.ofNat n)) 28 := by
    apply wordAt_congr
    intro index small
    exact strcpy_outside (by right; omega)
  rw [inside, wordAt_putWord_same]

theorem newEntry_name (junk : Bytes) (n : Nat) (plain : 0 ∉ name) (plain' : 0 ∉ other) :
    streq (Vol.newEntry junk n name) 0 other = decide (other = name) := by
  have own : streq (Vol.newEntry junk n name) 0 name = true := streq_strcpy _ _ _
  by_cases same : other = name
  · rw [same, own]
    simp
  · simp only [same, decide_false]
    by_contra found
    simp only [Bool.not_eq_false] at found
    exact same (streq_unique _ 0 other name plain' plain found own)

theorem clearedEntry_inum (de : Bytes) : wordAt (Vol.clearedEntry de) 28 = minusOne :=
  wordAt_putWord_same _ _ _

theorem removeEntry_inum (v : Vol) (d b j : Nat) :
    (v.removeEntry d b j).entryInum b j = minusOne := by
  rw [← clearedEntry_inum (v.entry b j)]
  apply wordAt_congr
  intro index small
  simp only [Vol.entry, Vol.removeEntry, Vol.setNode, Vol.putBlock, Function.update_self]
  rw [overwrite_inside (by omega) (by omega)]
  congr 1
  omega

theorem removeEntry_inum_other (v : Vol) (d b : Nat) {j j' : Nat} (other : j' ≠ j) :
    (v.removeEntry d b j).entryInum b j' = v.entryInum b j' := by
  apply entryInum_congr
  intro index small
  simp only [Vol.entry, Vol.removeEntry, Vol.setNode, Vol.putBlock, Function.update_self]
  exact overwrite_outside (by omega)
end Entries

end OsProjects.DirectoryBlocks
