import OsProjects.BlockOwnership
import OsProjects.DirectoryBlocks

/-!
A directory as a row of slots. Slot `k` of a directory is entry `k % 128` of the
block behind `direct[k / 128]`, and `Carries` says which name and inode number
it holds. A lookup finds what a scanned slot carries, an appended entry and a
removed one change one slot, and nothing else moves.
-/

namespace OsProjects.DirectorySlots

open ByteStore UfsLayout Volume VolumeSound VolumeRefinement MkfsImage ServerRuns DirectoryBlocks
  BlockOwnership

variable {g : Geometry} {v v' : Vol} {p k : Nat} {name other : List UInt8} {inum : UInt32}

def Carries (v : Vol) (p k : Nat) (name : List UInt8) (inum : UInt32) : Prop :=
  ∃ b, (v.node p).direct (k / 128) = some b ∧ v.hit name b (k % 128) = true ∧
    v.entryInum b (k % 128) = inum

theorem carries_of_hit {i b j : Nat} (mapped : (v.node p).direct i = some b) (small : j < 128)
    (hit : v.hit name b j = true) : Carries v p (128 * i + j) name (v.entryInum b j) := by
  have slot : (128 * i + j) % 128 = j := by omega
  exact ⟨b, by rwa [show (128 * i + j) / 128 = i by omega], by rwa [slot], by rw [slot]⟩

theorem Carries.unique {inum' : UInt32} (plain : 0 ∉ name) (plain' : 0 ∉ other)
    (carries : Carries v p k name inum) (carries' : Carries v p k other inum') :
    name = other ∧ inum = inum' := by
  obtain ⟨b, mapped, hit, rfl⟩ := carries
  obtain ⟨b', mapped', hit', rfl⟩ := carries'
  cases mapped.symm.trans mapped'
  exact ⟨hit_unique plain plain' hit hit', rfl⟩

section Lookups
variable (sound : Sound g v) (bit : v.inodeBit p = true) (dir : (v.node p).type = ufsDirectory)
include sound bit

theorem lookup_carries {i j : Nat} (found : v.lookup p name = some (i, j)) :
    128 * i + j < 128 * (v.node p).blocksUsed ∧
      Carries v p (128 * i + j) name (v.entryInum ((v.node p).at' i) j) := by
  obtain ⟨dir, inside, small, hit⟩ := lookup_found found
  exact ⟨by omega, carries_of_hit ((sound.node p bit).scanned dir inside) small hit⟩

include dir

theorem lookup_none_iff :
    v.lookup p name = none ↔
      ∀ k inum, k < 128 * (v.node p).blocksUsed → ¬ Carries v p k name inum := by
  constructor
  · rintro missing k inum inside ⟨b, mapped, hit, _⟩
    simp only [Vol.lookup, dir, ↓reduceIte, Vol.findEntry, List.find?_eq_none] at missing
    have scanned := (sound.node p bit).scanned dir (i := k / 128) (by omega)
    have same : (v.node p).at' (k / 128) = b := Option.some.inj (scanned.symm.trans mapped)
    apply missing (k / 128, k % 128) (mem_slots.mpr ⟨by omega, by omega⟩)
    simpa [same] using hit
  · intro never
    cases found : v.lookup p name with
    | none => rfl
    | some slot =>
      obtain ⟨inside, carries⟩ := lookup_carries sound bit found
      exact absurd carries (never _ _ inside)

/-- A name that stands in one scanned slot only is found there. -/
theorem lookup_of_carries (carries : Carries v p k name inum)
    (inside : k < 128 * (v.node p).blocksUsed)
    (once : ∀ k' inum', Carries v p k' name inum' → k' = k) :
    v.lookup p name = some (k / 128, k % 128) := by
  cases found : v.lookup p name with
  | none => exact absurd carries ((lookup_none_iff sound bit dir).mp found k inum inside)
  | some slot =>
    obtain ⟨i, j⟩ := slot
    obtain ⟨_, _, small, _⟩ := lookup_found found
    have place := once _ _ (lookup_carries sound bit found).2
    have block : k / 128 = i := by omega
    have entry : k % 128 = j := by omega
    rw [block, entry]

theorem lookupInum_of_carries (plain : 0 ∉ name) (carries : Carries v p k name inum)
    (inside : k < 128 * (v.node p).blocksUsed)
    (once : ∀ k' inum', Carries v p k' name inum' → k' = k) : v.lookupInum p name = some inum := by
  have found := lookup_of_carries sound bit dir carries inside once
  have there := (lookup_carries sound bit found).2
  rw [show 128 * (k / 128) + k % 128 = k by omega] at there
  rw [Vol.lookupInum, found, Option.map_some, (Carries.unique plain plain there carries).2]
end Lookups

/-- A slot depends on one pointer and on 32 bytes of its block. -/
theorem carries_congr (short : name.length ≤ 28)
    (pointer : (v'.node p).direct (k / 128) = (v.node p).direct (k / 128))
    (same : ∀ b, (v.node p).direct (k / 128) = some b → ∀ index < 32,
      v'.entry b (k % 128) index = v.entry b (k % 128) index) :
    Carries v' p k name inum ↔ Carries v p k name inum := by
  rw [Carries, Carries, pointer]
  constructor
  · rintro ⟨b, here, hit, carried⟩
    rw [hit_congr short (same b here)] at hit
    rw [entryInum_congr (same b here)] at carried
    exact ⟨b, here, hit, carried⟩
  · rintro ⟨b, here, hit, carried⟩
    rw [← hit_congr short (same b here)] at hit
    rw [← entryInum_congr (same b here)] at carried
    exact ⟨b, here, hit, carried⟩

theorem Apart.carries (apart : Apart p v v') (short : name.length ≤ 28) :
    Carries v' p k name inum ↔ Carries v p k name inum := by
  apply carries_congr short
  · rw [apart.node]
  · intro b here index _
    rw [Vol.entry, Vol.entry, apart.block _ b here]

theorem fresh_oneBlock (b size : Nat) : { (Node.fresh ufsDirectory).setPtr 0 b with size := size } =
      (⟨ufsDirectory, size, fun i => if i = 0 then some b else none⟩ : Node) := by
  ext i
  · rfl
  · rfl
  · by_cases start : i = 0
    · simp [start]
    · simp [start, Node.setPtr_other, Node.fresh]

section
variable {b j : Nat} {junk : Bytes} {self parent : UInt32}
  (contents : ∀ index < 4096, v.block b index = freshDir junk self parent index) (small : j < 128)
include contents small

theorem inum_freshDir :
    v.entryInum b j = if j = 0 then self else if j = 1 then parent else minusOne := by
  have word : v.entryInum b j = wordAt (freshDir junk self parent) (32 * j + 28) := by
    apply wordAt_congr
    intro index bound
    rw [Vol.entry, contents _ (by omega), show 32 * j + (28 + index) = 32 * j + 28 + index by omega]
  rw [word]
  split
  · subst j
    exact freshDir_self junk self parent
  split
  · subst j
    exact freshDir_parent junk self parent
  · exact freshDir_unused junk self parent j (by omega) small

theorem hit_freshDir (valid : self ≠ minusOne) (valid' : parent ≠ minusOne)
    (named : FileName name) :
    (v.hit name b j = true ∧ v.entryInum b j = inum) ↔
      j = 0 ∧ name = dot ∧ inum = self ∨ j = 1 ∧ name = dotDot ∧ inum = parent := by
  have word := inum_freshDir contents small
  have text : streq (v.entry b j) 0 name = streq (freshDir junk self parent) (32 * j) name := by
    apply streq_congr
    intro index bound
    have := named.short
    rw [Vol.entry, Nat.zero_add, contents _ (by omega)]
  -- the two names of the block, and no name from the third slot on
  by_cases first : j = 0
  · subst first
    rw [Vol.hit, text, word, if_pos rfl, Nat.mul_zero]
    have own := freshDir_dot junk self parent
    constructor
    · rintro ⟨hit, rfl⟩
      simp only [Bool.and_eq_true] at hit
      exact Or.inl ⟨rfl, streq_unique _ 0 _ _ named.plain dot_plain hit.1 own, rfl⟩
    · rintro (⟨_, rfl, rfl⟩ | ⟨impossible, _⟩)
      · simp [own, valid]
      · omega
  · by_cases second : j = 1
    · subst second
      rw [Vol.hit, text, word, if_neg first, if_pos rfl]
      have own := freshDir_dotDot junk self parent
      constructor
      · rintro ⟨hit, rfl⟩
        simp only [Bool.and_eq_true] at hit
        exact Or.inr ⟨rfl, streq_unique _ 32 _ _ named.plain dotDot_plain hit.1 own, rfl⟩
      · rintro (⟨impossible, _⟩ | ⟨_, rfl, rfl⟩)
        · omega
        · simp [own, valid']
    · have unused : v.entryInum b j = minusOne := by
        rw [word, if_neg first, if_neg second]
      rw [hit_unused unused]
      constructor
      · rintro ⟨impossible, _⟩
        cases impossible
      · rintro (⟨rfl, _⟩ | ⟨rfl, _⟩)
        · exact absurd rfl first
        · exact absurd rfl second
end

theorem ofNat_ne_minusOne {n : Nat} (small : n < 4294967295) : UInt32.ofNat n ≠ minusOne := by
  intro same
  have := congrArg UInt32.toNat same
  rw [toNat_ofNat_lt (by omega)] at this
  simp only [minusOne, UInt32.reduceToNat] at this
  omega

theorem carries_oneBlock {b : Nat} (first : (v.node p).direct 0 = some b)
    (only : ∀ i, i ≠ 0 → (v.node p).direct i = none) :
    Carries v p k name inum ↔ k < 128 ∧ v.hit name b k = true ∧ v.entryInum b k = inum := by
  by_cases front : k / 128 = 0
  · have inside : k < 128 := by omega
    have mod : k % 128 = k := by omega
    simp [Carries, front, first, mod, inside]
  · have outside : ¬ k < 128 := by omega
    simp [Carries, only _ front, outside]

theorem carries_freshDir {b : Nat} {junk : Bytes} {self parent : UInt32}
    (first : (v.node p).direct 0 = some b) (only : ∀ i, i ≠ 0 → (v.node p).direct i = none)
    (contents : ∀ index < 4096, v.block b index = freshDir junk self parent index)
    (valid : self ≠ minusOne) (valid' : parent ≠ minusOne) (asked : FileName other) :
    Carries v p k other inum ↔
      k = 0 ∧ other = dot ∧ inum = self ∨ k = 1 ∧ other = dotDot ∧ inum = parent := by
  rw [carries_oneBlock first only]
  constructor
  · rintro ⟨inside, slot⟩
    exact (hit_freshDir contents inside valid valid' asked).mp slot
  · intro slot
    have inside : k < 128 := by omega
    exact ⟨inside, (hit_freshDir contents inside valid valid' asked).mpr slot⟩

structure Stores (g : Geometry) (v : Vol) (p : Nat) (de : Bytes) (v' : Vol) (b : Nat) : Prop where
  source : (v.node p).direct ((v.node p).size / 4096) = some b ∨
    (v.node p).direct ((v.node p).size / 4096) = none ∧
      b = g.dataRegionAddr + (v.hghstAllocDblk + 1) ∧ v.hghstAllocDblk + 1 < g.numData
  node : v'.node p = { (v.node p).setPtr ((v.node p).size / 4096) b with
    size := (v.node p).size + 32 }
  block : v'.block = Function.update v.block b
    (overwrite (v.block b) ((v.node p).size % 4096) 32 de)
  counter : v'.hghstAllocDblk = if (v.node p).direct ((v.node p).size / 4096) = none then
    v.hghstAllocDblk + 1 else v.hghstAllocDblk

def Room (g : Geometry) (v : Vol) (p : Nat) : Prop :=
  (v.node p).size / 4096 ≤ 29 ∧ ((v.node p).direct ((v.node p).size / 4096) ≠ none ∨
    v.hghstAllocDblk + 1 < g.numData)

theorem EntryOutcome.stores {de : Bytes} (outcome : EntryOutcome g v p de v')
    (dir : (v.node p).type = ufsDirectory) (room : Room g v p) : ∃ b, Stores g v p de v' b := by
  obtain ⟨inside, place⟩ := room
  have enough := g.enough_data
  cases outcome with
  | lost reason =>
    rcases reason with file | beyond | ⟨hole, full⟩
    · exact absurd dir file
    · omega
    · rcases place with mapped | free
      · exact absurd hole mapped
      · omega
  | old b _ _ mapped =>
    refine ⟨b, Or.inl mapped, ?_, rfl, ?_⟩
    · simp [Vol.setNode, Node.setPtr, ← mapped]
    · simp [mapped, Vol.setNode, Vol.putBlock]
  | new v1 _ _ hole alloc next =>
    have bound := alloc.counter_lt
    refine ⟨g.dataRegionAddr + v1.hghstAllocDblk, Or.inr ⟨hole, by rw [next], by omega⟩, ?_, ?_, ?_⟩
    · simp [Vol.setNode]
    · simp [Vol.setNode, Vol.putBlock, alloc.block]
    · simp [hole, Vol.setNode, Vol.putBlock, next]

section Appending
variable {b n : Nat} {de junk : Bytes}

/-- The block of the new entry is no other block of the directory. -/
theorem Stores.distinct (stores : Stores g v p de v' b) (sound : Sound g v) (synced : Synced v)
    (bit : v.inodeBit p = true) (single : Single (v.node p)) {i : Nat}
    (other : i ≠ (v.node p).size / 4096) : (v.node p).direct i ≠ some b := by
  intro here
  rcases stores.source with mapped | ⟨_, new, inside⟩
  · exact other (single i _ b here mapped)
  · obtain ⟨_, k, _, used, place⟩ := (sound.node p bit).pointer i b here
    have := synced.blocks k used
    omega

theorem Stores.blank (stores : Stores g v p de v' b) (tidy : Tidy g v) (synced : Synced v)
    {i : Nat} (hole : (v.node p).direct ((v.node p).size / 4096) = none) (small : i < 4096) :
    v.block b i = 0 := by
  rcases stores.source with mapped | ⟨_, new, inside⟩
  · rw [hole] at mapped
    cases mapped
  · rw [new]
    exact synced.block_zero tidy (Nat.lt_succ_self _) inside small

theorem Stores.inum_beside (stores : Stores g v p de v' b) (sound : Sound g v) (synced : Synced v)
    (bit : v.inodeBit p = true) (single : Single (v.node p)) (whole : 32 ∣ (v.node p).size)
    {i j b' : Nat} (mapped : (v.node p).direct i = some b')
    (slot : 128 * i + j ≠ (v.node p).size / 32) : v'.entryInum b' j = v.entryInum b' j := by
  apply entryInum_congr
  intro index inside
  rw [Vol.entry, Vol.entry, stores.block]
  by_cases here : b' = b
  · have block : i = (v.node p).size / 4096 := by
      by_contra other
      exact stores.distinct sound synced bit single other (here ▸ mapped)
    rw [here, Function.update_self, overwrite_outside]
    omega
  · rw [Function.update_of_ne here]

theorem Stores.carries_new (stores : Stores g v p (Vol.newEntry junk n name) v' b)
    (whole : 32 ∣ (v.node p).size) (valid : n < 4294967295) (named : FileName name)
    (asked : FileName other) :
    Carries v' p ((v.node p).size / 32) other inum ↔ other = name ∧ inum = UInt32.ofNat n := by
  have short := asked.short
  have block : (v.node p).size / 32 / 128 = (v.node p).size / 4096 := by omega
  have place : 32 * ((v.node p).size / 32 % 128) = (v.node p).size % 4096 := by omega
  have direct : (v'.node p).direct ((v.node p).size / 32 / 128) = some b := by
    rw [stores.node, block, Node.setPtr_same]
  generalize (v.node p).size / 32 = k at direct place ⊢
  have bytes : ∀ index < 32, v'.entry b (k % 128) index = Vol.newEntry junk n name index := by
    intro index small
    rw [Vol.entry, stores.block, Function.update_self, place,
      overwrite_inside (by omega) (by omega), Nat.add_sub_cancel_left]
  have text : streq (v'.entry b (k % 128)) 0 other = decide (other = name) := by
    rw [← newEntry_name junk n named.plain asked.plain]
    apply streq_congr
    intro index bound
    rw [Nat.zero_add, bytes index (by omega)]
  have word : v'.entryInum b (k % 128) = UInt32.ofNat n := by
    rw [← newEntry_inum junk n named.short]
    apply wordAt_congr
    intro index bound
    exact bytes _ (by omega)
  have live := ofNat_ne_minusOne valid
  constructor
  · rintro ⟨b', here, hit, rfl⟩
    cases direct.symm.trans here
    rw [Vol.hit, text, word] at hit
    simp only [Bool.and_eq_true, decide_eq_true_eq] at hit
    exact ⟨hit.1, word⟩
  · rintro ⟨rfl, rfl⟩
    refine ⟨b, direct, ?_, word⟩
    simp [Vol.hit, text, word, live]

theorem Stores.carries_beside (stores : Stores g v p (Vol.newEntry junk n name) v' b)
    (tidy : Tidy g v) (synced : Synced v) (whole : 32 ∣ (v.node p).size) {k : Nat}
    (block : k / 128 = (v.node p).size / 4096) (slot : k ≠ (v.node p).size / 32)
    (asked : FileName other) : Carries v' p k other inum ↔ Carries v p k other inum := by
  have short := asked.short
  have direct : (v'.node p).direct (k / 128) = some b := by
    rw [stores.node, block, Node.setPtr_same]
  have bytes : ∀ index < 32, v'.entry b (k % 128) index = v.entry b (k % 128) index := by
    intro index small
    rw [Vol.entry, Vol.entry, stores.block, Function.update_self, overwrite_outside]
    omega
  have same : Carries v' p k other inum ↔
      v.hit other b (k % 128) = true ∧ v.entryInum b (k % 128) = inum := by
    rw [← hit_congr (by omega) bytes, ← entryInum_congr bytes]
    constructor
    · rintro ⟨b', here, hit, carried⟩
      cases direct.symm.trans here
      exact ⟨hit, carried⟩
    · rintro ⟨hit, carried⟩
      exact ⟨b, direct, hit, carried⟩
  rw [same]
  rcases stores.source with mapped | ⟨hole, _⟩
  · rw [Carries, block, mapped]
    simp
  · -- a block that was just taken holds zeros, and no name is empty
    constructor
    · rintro ⟨hit, _⟩
      simp only [Vol.hit, Bool.and_eq_true] at hit
      have zero : v.entry b (k % 128) 0 = 0 := by
        rw [Vol.entry]
        exact stores.blank tidy synced hole (by omega)
      exact absurd hit.1 (by simp [streq_blank zero asked])
    · rintro ⟨b', here, _⟩
      rw [block, hole] at here
      cases here

theorem Stores.carries (stores : Stores g v p (Vol.newEntry junk n name) v' b) (sound : Sound g v)
    (tidy : Tidy g v) (synced : Synced v) (bit : v.inodeBit p = true)
    (dir : (v.node p).type = ufsDirectory) (single : Single (v.node p)) (valid : n < 4294967295)
    (named : FileName name) {k : Nat} (asked : FileName other) :
    Carries v' p k other inum ↔ k = (v.node p).size / 32 ∧ other = name ∧ inum = UInt32.ofNat n ∨
        k ≠ (v.node p).size / 32 ∧ Carries v p k other inum := by
  have whole := (sound.node p bit).aligned dir
  by_cases slot : k = (v.node p).size / 32
  · rw [slot, stores.carries_new whole valid named asked]
    simp
  · simp only [slot, false_and, ne_eq, not_false_eq_true, true_and, false_or]
    by_cases block : k / 128 = (v.node p).size / 4096
    · exact stores.carries_beside tidy synced whole block slot asked
    · have short := asked.short
      apply carries_congr (by omega)
      · rw [stores.node]
        exact Node.setPtr_other block
      · intro b' here index _
        have apart : b' ≠ b := by
          rintro rfl
          exact stores.distinct sound synced bit single block here
        rw [Vol.entry, Vol.entry, stores.block, Function.update_of_ne apart]
end Appending

/-- A removed entry empties its slot, when it stood in the first block. -/
theorem removeEntry_carries (sound : Sound g v) (bit : v.inodeBit p = true)
    (single : Single (v.node p)) {i j : Nat} (found : v.lookup p name = some (i, j))
    (first : (v.node p).direct 0 = some ((v.node p).at' i)) {k : Nat} (asked : FileName other) :
    Carries (v.removeEntry p ((v.node p).at' i) j) p k other inum ↔
      k ≠ 128 * i + j ∧ Carries v p k other inum := by
  obtain ⟨dir, inside, small, _⟩ := lookup_found found
  have mapped := (sound.node p bit).scanned dir inside
  have front : i = 0 := single i 0 _ mapped first
  subst front
  have short := asked.short
  have pointer : ((v.removeEntry p ((v.node p).at' 0) j).node p).direct (k / 128) =
      (v.node p).direct (k / 128) := by
    simp [Vol.removeEntry, Vol.setNode, Node.setPtr, ← mapped]
  have block : (v.removeEntry p ((v.node p).at' 0) j).block ((v.node p).at' 0) =
      overwrite (v.block ((v.node p).at' 0)) (32 * j) 32
        (Vol.clearedEntry (v.entry ((v.node p).at' 0) j)) := by
    simp [Vol.removeEntry, Vol.setNode, Vol.putBlock]
  rw [Nat.mul_zero, Nat.zero_add]
  by_cases slot : k = j
  · -- the cleared slot answers to nothing
    subst slot
    have here : k / 128 = 0 := by omega
    simp only [ne_eq, not_true, false_and, iff_false]
    rintro ⟨b, direct, hit, _⟩
    rw [pointer, here, mapped] at direct
    cases direct
    rw [Nat.mod_eq_of_lt small] at hit
    exact hit_live hit (removeEntry_inum v p _ k)
  · simp only [ne_eq, slot, not_false_eq_true, true_and]
    apply carries_congr (by omega) pointer
    intro b here index bound
    by_cases same : b = (v.node p).at' 0
    · subst same
      have front : k / 128 = 0 := single _ 0 _ here mapped
      rw [Vol.entry, Vol.entry, block, overwrite_outside]
      omega
    · simp [Vol.entry, Vol.removeEntry, Vol.setNode, Vol.putBlock, same]

theorem makeDir_carries {n : Nat} (sound : Sound g v) (empty : ∀ i, (v.node n).direct i = none)
    (room : v.hghstAllocDblk + 1 < g.numData) (valid : n < 4294967295) (valid' : p < 4294967295)
    (junk : Bytes) {k : Nat} (asked : FileName other) :
    Carries (v.makeDir g n p junk).2 n k other inum ↔ k = 0 ∧ other = dot ∧ inum = UInt32.ofNat n ∨
        k = 1 ∧ other = dotDot ∧ inum = UInt32.ofNat p := by
  have fresh : ∀ v1 : Vol, ∀ index < 4096,
      ((v1.putBlock (g.dataRegionAddr + v1.hghstAllocDblk) 0 4096
        (freshDir junk (UInt32.ofNat n) (UInt32.ofNat p))).setNode n
          { (v.node n).setPtr 0 (g.dataRegionAddr + v1.hghstAllocDblk) with size := 64 }).block
            (g.dataRegionAddr + v1.hghstAllocDblk) index =
        freshDir junk (UInt32.ofNat n) (UInt32.ofNat p) index := by
    intro v1 index small
    simp only [Vol.setNode, Vol.putBlock, Function.update_self]
    rw [overwrite_inside (by omega) (by omega), Nat.sub_zero]
  rcases makeDir_cases sound n p junk with ⟨full, _⟩ | ⟨v1, alloc, next, made⟩
  · omega
  rw [made]
  refine carries_freshDir (by simp [Vol.setNode]) (fun i other => ?_) (fresh v1)
    (ofNat_ne_minusOne valid) (ofNat_ne_minusOne valid') asked
  simp [Vol.setNode, Node.setPtr_other other, empty]

theorem Initial.carries (initial : Initial g v) {k : Nat} (asked : FileName other) :
    Carries v 0 k other inum ↔
      k = 0 ∧ other = dot ∧ inum = 0 ∨ k = 1 ∧ other = dotDot ∧ inum = 0 := by
  obtain ⟨junk, contents⟩ := initial.entries
  exact carries_freshDir (by simp [initial.root]) (fun i other => by simp [initial.root, other])
    contents (by decide) (by decide) asked

section Creating
variable {type : UInt32} {chance : Chance}

def opened (g : Geometry) (v : Vol) (p : Nat) (type : UInt32) (chance : Chance) : Vol :=
  if type = ufsDirectory then
    ((v.newInode g type).2.makeDir g (v.highestInode + 1) p chance.dir).2
  else (v.newInode g type).2

def ownBlocks (type : UInt32) : Nat := if type = ufsDirectory then 1 else 0

theorem opened_respects (sound : Sound g v) (tidy : Tidy g v) (synced : Synced v)
    (room : v.highestInode + 1 < g.numInodes) (p : Nat) (type : UInt32) (chance : Chance) :
    Respects g (fun m => m = v.highestInode + 1) v (opened g v p type chance) := by
  have taken := @newInode_respects g v sound tidy room type (fun m => m = v.highestInode + 1) rfl
  unfold opened
  split
  · exact taken.trans (makeDir_respects taken.sound taken.tidy (taken.synced synced)
      (newInode_bit sound room type) p chance.dir rfl)
  · exact taken

theorem opened_single (sound : Sound g v) (single : AllSingle v)
    (room : v.highestInode + 1 < g.numInodes) (p : Nat) (type : UInt32) (chance : Chance) :
    AllSingle (opened g v p type chance) := by
  have taken := newInode_single sound room type single
  unfold opened
  split
  · apply makeDir_single (newInode_sound sound room type) _ p chance.dir taken
    intro i
    rw [newInode_fresh sound room type]
    rfl
  · exact taken

theorem newInode_counter (sound : Sound g v) (type : UInt32) :
    (v.newInode g type).2.hghstAllocDblk = v.hghstAllocDblk := by
  rcases newInode_cases sound type with ⟨_, full⟩ | ⟨_, taken⟩
  · rw [full]
  · rw [taken]

section
variable (sound : Sound g v) (room : v.highestInode + 1 < g.numInodes)
include sound room

theorem newInode_highestInode
    (type : UInt32) : (v.newInode g type).2.highestInode = v.highestInode + 1 := by
  rw [newInode_taken sound room type]

theorem opened_bit (p : Nat) (type : UInt32) (chance : Chance) (n : Nat) :
    (opened g v p type chance).inodeBit n = true ↔
      v.inodeBit n = true ∨ n = v.highestInode + 1 := by
  have taken : (v.newInode g type).2.inodeBit n = true ↔
      v.inodeBit n = true ∨ n = v.highestInode + 1 := by
    have taken := newInode_taken sound room type
    by_cases new : n = v.highestInode + 1
    · simp [taken, new]
    · simp [taken, new]
  unfold opened
  split
  · rw [makeDir_inodeBit (newInode_sound sound room type), taken]
  · exact taken

theorem opened_sound (p : Nat)
    (type : UInt32) (chance : Chance) : Sound g (opened g v p type chance) := by
  have taken := newInode_sound sound room type
  unfold opened
  split
  · exact makeDir_sound taken (newInode_bit sound room type) p chance.dir
  · exact taken

theorem opened_highestInode (p : Nat) (type : UInt32) (chance : Chance) :
    (opened g v p type chance).highestInode = v.highestInode + 1 := by
  have taken := newInode_highestInode sound room type
  unfold opened
  split
  · rw [(makeDir_touches (newInode_sound sound room type) _ p chance.dir).highestInode, taken]
  · exact taken

theorem opened_counter
    (blocks : v.hghstAllocDblk + ownBlocks type < g.numData) (p : Nat) (chance : Chance) :
    (opened g v p type chance).hghstAllocDblk = v.hghstAllocDblk + ownBlocks type := by
  have sound1 := newInode_sound sound room type
  have counter := newInode_counter sound type
  unfold opened ownBlocks at *
  split
  · rename_i isDir
    simp only [isDir, ↓reduceIte] at blocks sound1 counter ⊢
    rcases makeDir_cases sound1 (v.highestInode + 1) p chance.dir with
      ⟨full, _⟩ | ⟨v1, _, next, made⟩
    · omega
    · rw [made]
      simp only [Vol.setNode, Vol.putBlock]
      omega
  · exact counter
end

/-- A name that is not there, with an inode and the blocks of a directory left:
the entry is written. -/
theorem creat_absent (sound : Sound g v) (dir : (v.node p).type = ufsDirectory)
    (absent : v.lookup p name = none) (room : v.highestInode + 1 < g.numInodes)
    (blocks : v.hghstAllocDblk + ownBlocks type < g.numData) (chance : Chance) :
    v.creatFile g p type name chance = (true,
      (opened g v p type chance).addEntry g p (v.highestInode + 1) name chance.entry) := by
  have enough := g.enough_data
  have outcome := creatFile_outcome sound p type name chance
  generalize v.creatFile g p type name chance = result at outcome
  obtain ⟨ok, v'⟩ := result
  simp only at outcome
  cases outcome with
  | notDir file => exact absurd dir file
  | present _ found => simp [absent] at found
  | noInode _ _ full => omega
  | noBlock _ _ _ isDir full =>
    simp only [ownBlocks, isDir, ↓reduceIte] at blocks
    omega
  | file _ _ _ isFile => simp [opened, isFile]
  | dir _ _ _ isDir _ => simp [opened, isDir]

theorem addEntry_stores {v : Vol} {p : Nat} (sound : Sound g v) (bit : v.inodeBit p = true)
    (dir : (v.node p).type = ufsDirectory) (room : Room g v p) (n : Nat) (name : List UInt8)
    (junk : Bytes) : ∃ b, Stores g v p (Vol.newEntry junk n name) (v.addEntry g p n name junk) b :=
  EntryOutcome.stores (writeEntry_outcome (sound.node p bit) sound.hghstAllocDblk_lt _) dir room

structure Created (g : Geometry) (v : Vol) (p : Nat) (type : UInt32) (name : List UInt8)
    (v' : Vol) (b : Nat) : Prop where
  source : (v.node p).direct ((v.node p).size / 4096) = some b ∨
    (v.node p).direct ((v.node p).size / 4096) = none ∧
      b = g.dataRegionAddr + (v.hghstAllocDblk + ownBlocks type + 1)
  node : v'.node p = { (v.node p).setPtr ((v.node p).size / 4096) b with
    size := (v.node p).size + 32 }
  carries : ∀ k other inum, FileName other → (Carries v' p k other inum ↔
    k = (v.node p).size / 32 ∧ other = name ∧ inum = UInt32.ofNat (v.highestInode + 1) ∨
      k ≠ (v.node p).size / 32 ∧ Carries v p k other inum)
  beside : ∀ i b' j, (v.node p).direct i = some b' → 128 * i + j ≠ (v.node p).size / 32 →
    v'.entryInum b' j = v.entryInum b' j
  file : type ≠ ufsDirectory → v'.node (v.highestInode + 1) = Node.fresh type
  dir : type = ufsDirectory → v'.node (v.highestInode + 1) =
      { (Node.fresh ufsDirectory).setPtr 0 (g.dataRegionAddr + (v.hghstAllocDblk + 1)) with
        size := 64 } ∧
    ∀ k other inum, FileName other → (Carries v' (v.highestInode + 1) k other inum ↔
      k = 0 ∧ other = dot ∧ inum = UInt32.ofNat (v.highestInode + 1) ∨
        k = 1 ∧ other = dotDot ∧ inum = UInt32.ofNat p)
  inodeBit : ∀ n, v'.inodeBit n = true ↔ v.inodeBit n = true ∨ n = v.highestInode + 1
  highestInode : v'.highestInode = v.highestInode + 1
  counter : v'.hghstAllocDblk = v.hghstAllocDblk + ownBlocks type +
    if (v.node p).direct ((v.node p).size / 4096) = none then 1 else 0

/-- The new directory, before and after its parent gets the entry. -/
theorem opened_dir (sound : Sound g v) (room : v.highestInode + 1 < g.numInodes)
    (block : v.hghstAllocDblk + 1 < g.numData) (old : p < 4294967295) (chance : Chance) :
    (opened g v p ufsDirectory chance).node (v.highestInode + 1) =
        { (Node.fresh ufsDirectory).setPtr 0 (g.dataRegionAddr + (v.hghstAllocDblk + 1)) with
          size := 64 } ∧
      ∀ k other inum, FileName other →
        (Carries (opened g v p ufsDirectory chance) (v.highestInode + 1) k other inum ↔
          k = 0 ∧ other = dot ∧ inum = UInt32.ofNat (v.highestInode + 1) ∨
            k = 1 ∧ other = dotDot ∧ inum = UInt32.ofNat p) := by
  have layout := g.layout
  have sound1 := newInode_sound sound room ufsDirectory
  have counter := newInode_counter sound ufsDirectory
  have fresh := newInode_fresh sound room ufsDirectory
  constructor
  · rcases makeDir_cases sound1 (v.highestInode + 1) p chance.dir with
      ⟨full, _⟩ | ⟨v1, _, next, made⟩
    · omega
    · simp [opened, made, Vol.setNode, fresh, next, counter]
  · intro k other inum asked
    rw [opened, if_pos rfl]
    apply makeDir_carries sound1 _ (by omega) (by omega) old chance.dir asked
    intro i
    rw [fresh]
    rfl

section Entered
variable (sound : Sound g v) (tidy : Tidy g v) (synced : Synced v) (bit : v.inodeBit p = true)
  (room : v.highestInode + 1 < g.numInodes)
  (result : v' = (opened g v p type chance).addEntry g p (v.highestInode + 1) name chance.entry)
include sound tidy synced bit room result

theorem entered_bit (n : Nat) :
    v'.inodeBit n = true ↔ v.inodeBit n = true ∨ n = v.highestInode + 1 := by
  have first := opened_respects sound tidy synced room p type chance
  have touches := addEntry_touches first.sound (first.inodeBit _ bit) (v.highestInode + 1) name
    chance.entry
  rw [result, touches.inodeBit]
  exact opened_bit sound room p type chance n

theorem entered_highestInode : v'.highestInode = v.highestInode + 1 := by
  have first := opened_respects sound tidy synced room p type chance
  have touches := addEntry_touches first.sound (first.inodeBit _ bit) (v.highestInode + 1) name
    chance.entry
  rw [result, touches.highestInode]
  exact opened_highestInode sound room p type chance

theorem entered_apart : Apart (v.highestInode + 1) (opened g v p type chance) v' := by
  have low := synced.inodes _ bit
  have first := opened_respects sound tidy synced room p type chance
  have second := @addEntry_respects g _ p first.sound first.tidy (first.synced synced)
    (first.inodeBit _ bit) (v.highestInode + 1) name chance.entry (fun m => m = p) rfl
  rw [result]
  exact second.apart _ (by omega) ((opened_bit sound room p type chance _).mpr (.inr rfl))

theorem entered_file (isFile : type ≠ ufsDirectory) :
    v'.node (v.highestInode + 1) = Node.fresh type := by
  rw [(entered_apart sound tidy synced bit room result).node, opened, if_neg isFile,
    newInode_fresh sound room type]
end Entered

theorem creat_created (sound : Sound g v) (tidy : Tidy g v) (synced : Synced v)
    (single : AllSingle v) (bit : v.inodeBit p = true) (dir : (v.node p).type = ufsDirectory)
    (named : FileName name) (absent : v.lookup p name = none)
    (room : v.highestInode + 1 < g.numInodes)
    (blocks : v.hghstAllocDblk + ownBlocks type < g.numData) (inside : (v.node p).size / 4096 ≤ 29)
    (place : (v.node p).direct ((v.node p).size / 4096) ≠ none ∨
      v.hghstAllocDblk + ownBlocks type + 1 < g.numData) (chance : Chance) :
    ∃ v' b, v.creatFile g p type name chance = (true, v') ∧ Created g v p type name v' b := by
  have layout := g.layout
  have low := synced.inodes p bit
  have first := opened_respects sound tidy synced room p type chance
  have bit1 := first.inodeBit p bit
  have kept := first.apart p (by omega) bit
  have counter := opened_counter sound room blocks p chance
  have dir1 : ((opened g v p type chance).node p).type = ufsDirectory := kept.node ▸ dir
  have place1 : Room g (opened g v p type chance) p := by
    rw [Room, kept.node, counter]
    exact ⟨inside, place⟩
  have small : p < 4294967295 := by omega
  obtain ⟨b, stores⟩ := addEntry_stores first.sound bit1 dir1 place1 (v.highestInode + 1) name
    chance.entry
  have single1 := opened_single sound single room p type chance p bit1
  refine ⟨_, b, creat_absent sound dir absent room blocks chance, ?_⟩
  constructor
  · rcases stores.source with mapped | ⟨hole, fresh, _⟩
    · exact Or.inl (kept.node ▸ mapped)
    · exact Or.inr ⟨kept.node ▸ hole, by rw [fresh, counter]⟩
  · rw [stores.node, kept.node]
  · intro k other inum asked
    rw [stores.carries first.sound first.tidy (first.synced synced) bit1 dir1 single1 (by omega)
      named asked, kept.node, Apart.carries kept (le_trans asked.short (by decide))]
  · intro i b' j mapped slot
    rw [← kept.node] at mapped slot
    rw [stores.inum_beside first.sound (first.synced synced) bit1 single1
      ((first.sound.node p bit1).aligned dir1) mapped slot]
    rw [kept.node] at mapped
    exact entryInum_congr fun index _ => by rw [Vol.entry, Vol.entry, kept.block i b' mapped]
  · exact entered_file sound tidy synced bit room rfl
  · rintro rfl
    obtain ⟨node, slots⟩ := opened_dir sound room blocks small chance
    have new := @entered_apart g v _ p name ufsDirectory chance sound tidy synced bit room rfl
    constructor
    · rw [new.node, node]
    intro k other inum asked
    rw [Apart.carries new (le_trans asked.short (by decide))]
    exact slots k other inum asked
  · exact entered_bit sound tidy synced bit room rfl
  · exact entered_highestInode sound tidy synced bit room rfl
  · rw [stores.counter, kept.node, counter]
    split
    · rfl
    · rfl
end Creating

end OsProjects.DirectorySlots
