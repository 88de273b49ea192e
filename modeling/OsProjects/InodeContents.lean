import Mathlib.Algebra.BigOperators.Group.Finset.Sigma
import Mathlib.Order.Interval.Finset.Nat
import OsProjects.InodeFiles

/-!
What `readi`, `writei` and `itrunc` of `fs.c` do to the contents of files, over the
slots of `InodeFiles`. Each round of a loop is described once, and rounds compose.
-/

namespace OsProjects.InodeFiles

open ByteStore WordArrays Ownership Function List

section Bytes
variable {sb : Super} {start : Nat} {fs fs' fs'' : Fs} {w w' w'' : Nat → Nat} {i : Nat} {src : Bytes}

def byte (fs : Fs) (i k : Nat) : UInt8 := fs.disk (ptr fs (i, slotOf (k / 512))) (k % 512)

def need (size : Nat) : Nat := if size = 0 then 0 else slotOf ((size - 1) / 512) + 1

theorem slotOf_mono {bn other : Nat} (le : bn ≤ other) : slotOf bn ≤ slotOf other := by
  unfold slotOf
  split <;> split <;> omega

theorem blocks_need (size : Nat) : blocks (need size) = (size + 511) / 512 := by
  by_cases zero : size = 0
  · simp [need, zero, blocks]
  · rw [need, if_neg zero, blocks, slotOf]
    by_cases low : (size - 1) / 512 < 12
    · rw [if_pos low, if_pos (by omega)]
      omega
    · rw [if_neg low, if_neg (by omega)]
      omega

theorem need_mono {size size' : Nat} (le : size ≤ size') : need size ≤ need size' := by
  unfold need
  by_cases zero : size = 0
  · rw [if_pos zero]
    exact Nat.zero_le _
  · rw [if_neg zero, if_neg (by omega)]
    exact Nat.succ_le_succ (slotOf_mono (by omega))

/-- A change of bytes that hold neither pointers nor bits. -/
theorem Sound.congr (sound : Sound sb start fs w)
    (addrs : ∀ j, (fs'.inode j).addrs = (fs.inode j).addrs)
    (table : ∀ j < sb.ninodes, 12 < w j → fs'.disk (ptr fs (j, 12)) = fs.disk (ptr fs (j, 12)))
    (bits : ∀ b, b < start ∨ b < sb.size → bit sb fs' b = bit sb fs b) :
    Sound sb start fs' w ∧ ∀ s ∈ slots sb w, ptr fs' s = ptr fs s := by
  have same : ∀ j s, j < sb.ninodes → (12 < s → 12 < w j) → ptr fs' (j, s) = ptr fs (j, s) :=
    fun j s inode reach =>
      ptr_congr (fun _ _ => by rw [addrs]) fun above => table j inode (reach above)
  have slots' : ∀ s ∈ slots sb w, ptr fs' s = ptr fs s := by
    rintro ⟨j, s⟩ ⟨inode, inside⟩
    exact same j s inode fun above => Nat.lt_trans above inside
  refine ⟨⟨sound.owned.congr slots' (fun _ => Iff.rfl) fun c part => ?_, fun b below => ?_,
    fun j inode k => ?_, fun j inode wide s above inside => ?_, sound.few⟩, slots'⟩
  · change bit sb fs' c = true ↔ bit sb fs c = true
    rw [bits c (Or.inr part.2)]
  · rw [bits b (Or.inl below)]
    exact sound.reserved b below
  · rw [addrs]
    exact sound.blank j inode k
  · rw [same j s inode fun _ => wide]
    exact sound.rest j inode wide s above inside

theorem Sound.put_data (sound : Sound sb start fs w) (layout : Layout sb start) {s : Nat × Nat}
    (used : s ∈ slots sb w) (data : s.2 ≠ 12) (bytes : Bytes) :
    Sound sb start (fs.put (ptr fs s) bytes) w ∧
      ∀ t ∈ slots sb w, ptr (fs.put (ptr fs s) bytes) t = ptr fs t := by
  refine sound.congr (fun _ => rfl) (fun j inode wide => ?_) fun b here => ?_
  · refine update_of_ne (fun clash => data ?_) _ _
    exact (congrArg Prod.snd (sound.owned.inj (j, 12) ⟨inode, wide⟩ s used clash)).symm
  · have inside : b < sb.size := here.elim (fun below => Nat.lt_of_lt_of_le below layout.data) id
    exact bit_put_data layout bytes (sound.at_slot used.1 used.2).1 inside

/-- Bytes `off` to `off + rest` of inode `i` have been written from `src + tot`, and
slots were added for them; the rest is as before. -/
structure Wrote (sb : Super) (start i : Nat) (src : Bytes) (off tot rest : Nat) (fs : Fs)
    (w : Nat → Nat) (fs' : Fs) (w' : Nat → Nat) : Prop where
  sound : Sound sb start fs' w'
  width : w' i = if rest = 0 then w i else max (w i) (need (off + rest))
  others : ∀ j ≠ i, w' j = w j ∧ fs'.inode j = fs.inode j
  head : (fs'.inode i).size = (fs.inode i).size
  lower : ∀ c < sb.bmapstart, fs'.disk c = fs.disk c
  written : ∀ k, off ≤ k → k < off + rest → byte fs' i k = src (tot + (k - off))
  kept : ∀ k < 512 * blocks (w i), k < off ∨ off + rest ≤ k → byte fs' i k = byte fs i k
  apart : ∀ j < sb.ninodes, j ≠ i → ∀ k < 512 * blocks (w j), byte fs' j k = byte fs j k
  /-- a write inside the blocks of the file changes no inode -/
  inner : off + rest ≤ 512 * blocks (w i) → fs'.inode = fs.inode ∧ w' = w

theorem Wrote.nothing (sound : Sound sb start fs w) (off tot : Nat) :
    Wrote sb start i src off tot 0 fs w fs w where
  sound := sound
  width := rfl
  others _ _ := ⟨rfl, rfl⟩
  head := rfl
  lower _ _ := rfl
  written k low high := by omega
  kept _ _ _ := rfl
  apart _ _ _ _ _ := rfl
  inner _ := ⟨rfl, rfl⟩

theorem lt_blocks {k width : Nat} (inside : k < 512 * blocks width) : slotOf (k / 512) < width :=
  slotOf_lt.mpr (by omega)

theorem Wrote.round {off tot m : Nat} {addr : UInt32} (layout : Layout sb start)
    (inode : i < sb.ninodes) (took : Took sb start i (slotOf (off / 512)) fs w addr fs') (positive : 0 < m)
    (fits : off % 512 + m ≤ 512) :
    Wrote sb start i src off tot m fs w
      (fs'.put addr.toNat (overwrite (fs'.disk addr.toNat) (off % 512) m fun k => src (tot + k)))
      (update w i (max (w i) (slotOf (off / 512) + 1))) := by
  have grew := took.grew
  have here : (i, slotOf (off / 512)) ∈
      slots sb (update w i (max (w i) (slotOf (off / 512) + 1))) := by
    refine ⟨inode, ?_⟩
    dsimp only
    rw [update_self]
    omega
  rw [took.addr]
  obtain ⟨sound', ptrs⟩ := grew.sound.put_data layout here (slotOf_ne _)
    (overwrite (fs'.disk (ptr fs' (i, slotOf (off / 512)))) (off % 512) m fun k => src (tot + k))
  have low : start ≤ ptr fs' (i, slotOf (off / 512)) := (grew.sound.at_slot inode here.2).1
  have top : need (off + m) = slotOf (off / 512) + 1 := by
    rw [need, if_neg (by omega), show (off + m - 1) / 512 = off / 512 by omega]
  -- the block at a slot other than the one written
  have away : ∀ s ∈ slots sb w, s.2 ≠ 12 → s ≠ (i, slotOf (off / 512)) → ∀ bytes,
      (fs'.put (ptr fs' (i, slotOf (off / 512))) bytes).disk (ptr fs s) = fs.disk (ptr fs s) := by
    intro s used data differ bytes
    rw [← grew.data s used data]
    refine update_of_ne (fun clash => differ ?_) _ _
    rw [← grew.ptrs s used] at clash
    exact grew.sound.owned.inj s (grew.slots used) _ here clash
  refine {
    sound := sound', width := ?_
    others := fun j differ => ⟨update_of_ne differ .., (grew.others j differ).2⟩
    head := grew.head, lower := fun c below => ?_, written := fun k first last => ?_
    kept := fun k inside outside => ?_, apart := fun j other differ k inside => ?_
    inner := fun fits => ?_ }
  · rw [update_self, if_neg (by omega), top]
  · have := layout.bitmap
    refine (update_of_ne ?_ _ _).trans (grew.lower c below)
    omega
  · have block : k / 512 = off / 512 := by omega
    rw [byte, block, ptrs _ here]
    simp only [Fs.put]
    rw [update_self, overwrite_inside (by omega) (by omega)]
    congr 2
    omega
  · have used : (i, slotOf (k / 512)) ∈ slots sb w := ⟨inode, lt_blocks inside⟩
    rw [byte, byte, ptrs _ (grew.slots used), grew.ptrs _ used]
    by_cases block : k / 512 = off / 512
    · have old := took.old (by rw [← block]; exact lt_blocks inside)
      rw [block, ← old]
      simp only [Fs.put]
      rw [update_self, overwrite_outside (by omega)]
    · rw [away _ used (slotOf_ne _)]
      exact fun same => block (slotOf_inj (congrArg Prod.snd same))
  · have used : (j, slotOf (k / 512)) ∈ slots sb w := ⟨other, lt_blocks inside⟩
    rw [byte, byte, ptrs _ (grew.slots used), grew.ptrs _ used, away _ used (slotOf_ne _)]
    exact fun same => differ (congrArg Prod.fst same)
  · have used : slotOf (off / 512) < w i := lt_blocks (by omega)
    refine ⟨?_, ?_⟩
    · rw [took.old used]
      rfl
    · rw [Nat.max_eq_left used, update_eq_self]

theorem Wrote.wider {off tot rest : Nat} (wrote : Wrote sb start i src off tot rest fs w fs' w') :
    w i ≤ w' i := by
  rw [wrote.width]
  split <;> omega

theorem blocks_mono {width width' : Nat} (le : width ≤ width') : blocks width ≤ blocks width' := by
  unfold blocks
  split <;> split <;> omega

theorem Wrote.trans {off tot m rest : Nat} (one : Wrote sb start i src off tot m fs w fs' w')
    (two : Wrote sb start i src (off + m) (tot + m) rest fs' w' fs'' w'')
    (reach : off + m ≤ 512 * blocks (w' i)) (positive : 0 < m) :
    Wrote sb start i src off tot (m + rest) fs w fs'' w'' := by
  have wider := blocks_mono one.wider
  refine {
    sound := two.sound, width := ?_, others := fun j differ => ?_, head := two.head.trans one.head
    lower := fun c low => (two.lower c low).trans (one.lower c low)
    written := fun k first last => ?_, kept := fun k inside outside => ?_
    apart := fun j other differ k inside => ?_, inner := fun inside => ?_ }
  · have more := need_mono (show off + m ≤ off + (m + rest) by omega)
    rw [two.width, one.width, if_neg (Nat.ne_of_gt positive), if_neg (show m + rest ≠ 0 by omega)]
    by_cases zero : rest = 0
    · rw [if_pos zero, zero, Nat.add_zero]
    · rw [if_neg zero, Nat.add_assoc]
      omega
  · exact ⟨(two.others j differ).1.trans (one.others j differ).1,
      (two.others j differ).2.trans (one.others j differ).2⟩
  · by_cases early : k < off + m
    · rw [two.kept k (by omega) (Or.inl early), one.written k first early]
    · rw [two.written k (by omega) (by omega)]
      congr 1
      omega
  · rw [two.kept k (by omega) (by omega), one.kept k inside (by omega)]
  · have same := (one.others j differ).1
    rw [two.apart j other differ k (by rwa [same]), one.apart j other differ k inside]
  · obtain ⟨inodes, widths⟩ := one.inner (by omega)
    obtain ⟨inodes', widths'⟩ := two.inner (by rw [widths]; omega)
    exact ⟨inodes'.trans inodes, widths'.trans widths⟩

def freeBlocks (sb : Super) (fs : Fs) : Nat :=
  ((Finset.range sb.size).filter fun b => bit sb fs b = false).card

/-- The slots in use, as many as there are marked data blocks. -/
theorem Sound.card_marked (sound : Sound sb start fs w) :
    ((Finset.Ico start sb.size).filter fun b => bit sb fs b = true).card =
      ∑ i ∈ Finset.range sb.ninodes, w i := by
  let used := ((Finset.range sb.ninodes).sigma fun i => Finset.range (w i)).map
    (Equiv.sigmaEquivProd Nat Nat).toEmbedding
  have slotted : (used : Set (Nat × Nat)) = slots sb w := by
    ext ⟨i, s⟩
    simp [used, slots]
  have blocks : (Finset.Ico start sb.size : Set Nat) = region sb start := by
    ext b
    simp [region]
  have owned : Owned (ptr fs) used {b | bit sb fs b = true} (Finset.Ico start sb.size) := by
    rw [slotted, blocks]
    exact sound.owned
  rw [owned.card, Finset.card_map, Finset.card_sigma]
  simp

/-- Marked and free blocks make up the disk. -/
theorem Sound.balance (sound : Sound sb start fs w) (layout : Layout sb start) :
    start + ∑ i ∈ Finset.range sb.ninodes, w i + freeBlocks sb fs = sb.size := by
  have all := Finset.card_filter_add_card_filter_not (s := Finset.range sb.size)
    fun b => bit sb fs b = false
  have marks : (Finset.range sb.size).filter (fun b => ¬ bit sb fs b = false) =
      Finset.range start ∪ (Finset.Ico start sb.size).filter fun b => bit sb fs b = true := by
    ext b
    have data := layout.data
    have reserved := sound.reserved b
    simp only [Finset.mem_filter, Finset.mem_range, Finset.mem_union, Finset.mem_Ico,
      Bool.not_eq_false]
    constructor
    · rintro ⟨inside, mark⟩
      by_cases low : b < start
      · exact Or.inl low
      · exact Or.inr ⟨⟨Nat.le_of_not_lt low, inside⟩, mark⟩
    · rintro (low | ⟨⟨_, inside⟩, mark⟩)
      · exact ⟨by omega, reserved low⟩
      · exact ⟨inside, mark⟩
  have apart : Disjoint (Finset.range start)
      ((Finset.Ico start sb.size).filter fun b => bit sb fs b = true) := by
    refine Finset.disjoint_left.mpr fun b low high => ?_
    have := Finset.mem_range.mp low
    have := (Finset.mem_Ico.mp (Finset.mem_filter.mp high).1).1
    omega
  rw [marks, Finset.card_union_of_disjoint apart, sound.card_marked, Finset.card_range,
    Finset.card_range] at all
  unfold freeBlocks
  omega

/-- What one inode gains is taken from the free blocks. -/
theorem Sound.exchange (sound : Sound sb start fs w) (sound' : Sound sb start fs' w')
    (layout : Layout sb start) (inode : i < sb.ninodes) (others : ∀ j ≠ i, w' j = w j) :
    w' i + freeBlocks sb fs' = w i + freeBlocks sb fs := by
  have before := sound.balance layout
  have after := sound'.balance layout
  have member : i ∈ Finset.range sb.ninodes := Finset.mem_range.mpr inode
  have rest : ∑ j ∈ (Finset.range sb.ninodes).erase i, w' j =
      ∑ j ∈ (Finset.range sb.ninodes).erase i, w j :=
    Finset.sum_congr rfl fun j here => others j (Finset.ne_of_mem_erase here)
  have split := Finset.add_sum_erase _ w member
  have split' := Finset.add_sum_erase _ w' member
  omega

def Short (sb : Super) (fs : Fs) (width size : Nat) : Prop := width + freeBlocks sb fs < need size

theorem Stuck.short {slot size : Nat} (stuck : Stuck sb start i slot fs w)
    (sound : Sound sb start fs w) (layout : Layout sb start) (inode : i < sb.ninodes)
    (within : slot < need size) : Short sb fs (w i) size := by
  obtain ⟨mid, w', grew, short, full⟩ := stuck
  have none : freeBlocks sb mid = 0 := by
    refine Finset.card_eq_zero.mpr (Finset.filter_eq_empty_iff.mpr fun b inside => ?_)
    rw [full b (Finset.mem_range.mp inside)]
    exact Bool.noConfusion
  have same := sound.exchange grew.sound layout inode fun j differ => (grew.others j differ).1
  unfold Short
  omega

theorem writeLoop_spec (layout : Layout sb start) (inode : i < sb.ninodes) (fuel : Nat) :
    ∀ {fs : Fs} {w : Nat → Nat} {off tot rest : Nat}, Sound sb start fs w → rest ≤ fuel →
      off + rest ≤ 71680 → off ≤ 512 * blocks (w i) →
      (writeLoop sb i src fuel fs off tot rest = none ∧ Short sb fs (w i) (off + rest)) ∨
        ∃ fs' w', writeLoop sb i src fuel fs off tot rest = some fs' ∧
          Wrote sb start i src off tot rest fs w fs' w' := by
  induction fuel with
  | zero =>
    intro fs w off tot rest sound enough _ _
    have done : rest = 0 := by omega
    subst done
    exact Or.inr ⟨fs, w, rfl, Wrote.nothing sound off tot⟩
  | succ fuel ih =>
    intro fs w off tot rest sound enough small reach
    by_cases done : rest = 0
    · subst done
      exact Or.inr ⟨fs, w, rfl, Wrote.nothing sound off tot⟩
    · unfold writeLoop
      rw [if_neg done]
      rcases bmap_spec sound layout inode (by omega : off / 512 < 140) (by omega) with
        ⟨none, _, stuck⟩ | ⟨addr, mid, result, took⟩
      · have within : slotOf (off / 512) < need (off + rest) := by
          rw [need, if_neg (by omega)]
          exact Nat.lt_succ_of_le (slotOf_mono (Nat.div_le_div_right (by omega)))
        rw [none]
        exact Or.inl ⟨rfl, stuck.short sound layout inode within⟩
      · rw [result]
        dsimp only
        generalize size : min rest (512 - off % 512) = m
        have positive : 0 < m := by omega
        have wrote := @Wrote.round sb start fs mid w i src off tot m addr layout inode took
          positive (by omega)
        have reach' : off + m ≤ 512 *
            blocks (update w i (max (w i) (slotOf (off / 512) + 1)) i) := by
          have inside : off / 512 < blocks (max (w i) (slotOf (off / 512) + 1)) :=
            slotOf_lt.mp (by omega)
          rw [update_self]
          omega
        have total : m + (rest - m) = rest := by omega
        rcases ih wrote.sound (by omega : rest - m ≤ fuel) (by omega) reach' with
          ⟨none, short⟩ | ⟨fs', w', found, later⟩
        · have same := sound.exchange wrote.sound layout inode fun j differ =>
            (wrote.others j differ).1
          rw [Short, same, Nat.add_assoc, total] at short
          exact Or.inl ⟨none, short⟩
        · refine Or.inr ⟨fs', w', found, ?_⟩
          have both := wrote.trans later reach' positive
          rwa [total] at both

theorem readLoop_spec (layout : Layout sb start) (inode : i < sb.ninodes)
    (sound : Sound sb start fs w) (fuel : Nat) :
    ∀ {off tot rest : Nat} {dst : Bytes}, rest ≤ fuel → off + rest ≤ 512 * blocks (w i) →
      ∃ dst', readLoop sb i fuel fs off tot rest dst = some (dst', fs) ∧
        ∀ k, dst' k = if tot ≤ k ∧ k < tot + rest then byte fs i (off + (k - tot)) else dst k := by
  induction fuel with
  | zero =>
    intro off tot rest dst enough _
    have done : rest = 0 := by omega
    subst done
    exact ⟨dst, rfl, fun k => by rw [if_neg (by omega)]⟩
  | succ fuel ih =>
    intro off tot rest dst enough reach
    by_cases done : rest = 0
    · subst done
      exact ⟨dst, rfl, fun k => by rw [if_neg (by omega)]⟩
    · have few := sound.few i inode
      have short : off / 512 < 140 := by
        unfold blocks at reach
        split at reach <;> omega
      have used : slotOf (off / 512) < w i := lt_blocks (by omega)
      unfold readLoop
      rw [if_neg done]
      rcases bmap_spec sound layout inode short (by omega) with
        ⟨_, ends, _⟩ | ⟨addr, mid, result, took⟩
      · exact absurd used (Nat.not_lt_of_le ends)
      · have same := took.old used
        subst same
        rw [result]
        dsimp only
        generalize size : min rest (512 - off % 512) = m
        obtain ⟨dst', found, bytes⟩ := @ih (off + m) (tot + m) (rest - m)
          (overwrite dst tot m fun k => mid.disk addr.toNat (off % 512 + k)) (by omega) (by omega)
        refine ⟨dst', found, fun k => ?_⟩
        rw [bytes k]
        by_cases later : tot + m ≤ k ∧ k < tot + m + (rest - m)
        · rw [if_pos later, if_pos (by omega)]
          congr 1
          omega
        · rw [if_neg later]
          by_cases first : tot ≤ k ∧ k < tot + m
          · rw [overwrite_inside first.1 first.2, if_pos (by omega), byte, took.addr,
              show (off + (k - tot)) / 512 = off / 512 by omega,
              show (off + (k - tot)) % 512 = off % 512 + (k - tot) by omega]
          · rw [overwrite_outside (by omega), if_neg (by omega)]

end Bytes

section Inodes
variable {sb : Super} {start : Nat} {fs : Fs} {w : Nat → Nat} {i : Nat}

theorem Sound.put_low (sound : Sound sb start fs w) (layout : Layout sb start) {c : Nat}
    (low : c < sb.bmapstart) (bytes : Bytes) :
    Sound sb start (fs.put c bytes) w ∧
      ∀ j < sb.ninodes, ∀ k < 512 * blocks (w j), byte (fs.put c bytes) j k = byte fs j k := by
  have above : sb.bmapstart ≤ start := Nat.le_trans (Nat.le_add_right _ _) layout.bitmap
  have disk : ∀ b, start ≤ b → (fs.put c bytes).disk b = fs.disk b := fun b high =>
    update_of_ne (by omega) ..
  have bits : ∀ b, bit sb (fs.put c bytes) b = bit sb fs b := by
    intro b
    have differ : bblock sb b ≠ c := by
      unfold bblock
      omega
    simp only [bit, Fs.put]
    rw [update_of_ne differ]
  obtain ⟨sound', ptrs⟩ := @Sound.congr sb start fs (fs.put c bytes) w sound (fun _ => rfl)
    (fun j inode wide => disk _ (sound.at_slot inode wide).1) fun b _ => bits b
  refine ⟨sound', fun j inode k inside => ?_⟩
  have used := lt_blocks inside
  rw [byte, byte, ptrs (j, slotOf (k / 512)) ⟨inode, used⟩, disk _ (sound.at_slot inode used).1]

theorem length_words (ip : Inode) : (words ip).length = 16 := by
  simp [words]

theorem dinode_iupdate (sb : Super) (fs : Fs) (i j : Nat) :
    dinode sb (iupdate sb fs i) j = if j = i then words (fs.inode i) else dinode sb fs j := by
  by_cases same : j = i
  · subst same
    rw [if_pos rfl]
    have stored := wordsAt_putWords (fs.disk (iblock sb j)) (64 * (j % 8)) (words (fs.inode j))
    rw [length_words] at stored
    simp only [dinode, iupdate, Fs.put]
    rw [update_self, stored]
  · rw [if_neg same]
    by_cases block : iblock sb j = iblock sb i
    · have differ : j % 8 ≠ i % 8 := by
        intro equal
        unfold iblock at block
        omega
      simp only [dinode, iupdate, Fs.put, block]
      rw [update_self, wordsAt, wordsAt]
      refine map_congr_left fun index inside => wordAt_putWords_outside _ _ _ _ ?_
      have inside := mem_range.mp inside
      rw [length_words]
      omega
    · simp only [dinode, iupdate, Fs.put]
      rw [update_of_ne block]

theorem Sound.setSize (sound : Sound sb start fs w) (i : Nat) (size : UInt32) :
    Sound sb start (fs.setSize i size) w ∧ ∀ s, ptr (fs.setSize i size) s = ptr fs s := by
  have addrs : ∀ j, ((fs.setSize i size).inode j).addrs = (fs.inode j).addrs :=
    (forall_update_iff fs.inode fun j now => now.addrs = (fs.inode j).addrs).mpr
      ⟨rfl, fun _ _ => rfl⟩
  exact ⟨(sound.congr addrs (fun _ _ _ => rfl) fun _ _ => rfl).1, fun s =>
    ptr_congr (fun k _ => by rw [addrs]) fun _ => rfl⟩

def widths (fs : Fs) : Nat → Nat := fun i => need (fs.inode i).size.toNat

structure Tidy (sb : Super) (start : Nat) (fs : Fs) : Prop where
  sound : Sound sb start fs (widths fs)
  sizes : ∀ i < sb.ninodes, (fs.inode i).size.toNat ≤ 71680
  synced : ∀ i < sb.ninodes, dinode sb fs i = words (fs.inode i)

structure File where
  size : Nat
  bytes : Bytes

def File.write (f : File) (off n : Nat) (src : Bytes) : File :=
  ⟨if n = 0 then f.size else max f.size (off + n), overwrite f.bytes off n src⟩

def Shows (fs : Fs) (i : Nat) (f : File) : Prop :=
  (fs.inode i).size.toNat = f.size ∧ ∀ k < f.size, byte fs i k = f.bytes k

theorem Tidy.reach (i : Nat) (fs : Fs) : (fs.inode i).size.toNat ≤ 512 * blocks (widths fs i) := by
  rw [widths, blocks_need]
  omega

theorem writei_refuses {size off n : UInt32} :
    (size < off ∨ off + n < off) ∨ 71680 < off + n ↔
      ¬ (off.toNat ≤ size.toNat ∧ off.toNat + n.toNat ≤ 71680) := by
  have sum := UInt32.toNat_add off n
  have one := off.toNat_lt
  have two := n.toNat_lt
  have bound : (71680 : UInt32).toNat = 71680 := rfl
  simp only [UInt32.lt_iff_toNat_lt, sum, bound]
  omega

structure Updated (sb : Super) (start i : Nat) (fs fs' : Fs) (f : File) : Prop where
  tidy : Tidy sb start fs'
  shows : Shows fs' i f
  others : ∀ j < sb.ninodes, j ≠ i → ∀ g, Shows fs j g → Shows fs' j g

section
variable {mid : Fs} {w' : Nat → Nat} {src : Bytes} {off n : Nat} {f : File}
  (wrote : Wrote sb start i src off 0 n fs (widths fs) mid w')
include wrote

theorem Wrote.file (shows : Shows fs i f)
    (before : off ≤ f.size) {k : Nat} (inside : k < (f.write off n src).size) :
    byte mid i k = (f.write off n src).bytes k := by
  obtain ⟨size, bytes⟩ := shows
  have reach := Tidy.reach i fs
  have inside : k < if n = 0 then f.size else max f.size (off + n) := inside
  by_cases new : off ≤ k ∧ k < off + n
  · rw [wrote.written k new.1 new.2, Nat.zero_add]
    exact (overwrite_inside new.1 new.2).symm
  · have old : k < f.size := by
      split at inside <;> omega
    rw [wrote.kept k (by omega) (by omega), bytes k old]
    exact (overwrite_outside (by omega)).symm

/-- The loop was inside the file: nothing but data has changed. -/
theorem Wrote.within (tidy : Tidy sb start fs)
    (layout : Layout sb start) (shows : Shows fs i f) (short : n = 0 ∨ off + n ≤ f.size)
    (before : off ≤ f.size) : Updated sb start i fs mid (f.write off n src) := by
  have reach := Tidy.reach i fs
  have size := shows.1
  obtain ⟨inodes, rfl⟩ := wrote.inner (by omega)
  have same : widths mid = widths fs := by
    unfold widths
    rw [inodes]
  refine ⟨⟨by rw [same]; exact wrote.sound, fun j inode => ?_, fun j inode => ?_⟩,
    ⟨?_, fun k inside => wrote.file shows before inside⟩,
    fun j inode differ g old => ⟨?_, fun k inside => ?_⟩⟩
  · rw [inodes]
    exact tidy.sizes j inode
  · rw [inodes, ← tidy.synced j inode, dinode, dinode, wrote.lower _ (layout.iblock_lt inode)]
  · rw [inodes, size]
    change f.size = if n = 0 then f.size else max f.size (off + n)
    split <;> omega
  · rw [inodes]
    exact old.1
  · have reach := Tidy.reach j fs
    have inside' := inside
    rw [← old.1] at inside'
    rw [wrote.apart j inode differ k (by omega), old.2 k inside]
end

/-- The size of a file is set and `iupdate` stores its inode, after its blocks were
brought in line with the new size. -/
theorem Updated.store {mid : Fs} {w' : Nat → Nat} {f : File} (tidy : Tidy sb start fs)
    (layout : Layout sb start) (inode : i < sb.ninodes) (sound : Sound sb start mid w')
    (others : ∀ j ≠ i, w' j = widths fs j ∧ mid.inode j = fs.inode j)
    (lower : ∀ c < sb.bmapstart, mid.disk c = fs.disk c)
    (apart : ∀ j < sb.ninodes, j ≠ i → ∀ k < 512 * blocks (widths fs j), byte mid j k = byte fs j k)
    (file : ∀ k < f.size, byte mid i k = f.bytes k) {total : UInt32} (value : total.toNat = f.size)
    (small : f.size ≤ 71680) (width : w' i = need f.size) :
    Updated sb start i fs (iupdate sb (mid.setSize i total) i) f := by
  obtain ⟨resized, ptrs⟩ := sound.setSize i total
  obtain ⟨stored, bytes⟩ := resized.put_low layout (layout.iblock_lt inode)
    (putWords ((mid.setSize i total).disk (iblock sb i)) (64 * (i % 8))
      (words ((mid.setSize i total).inode i)))
  have this : (iupdate sb (mid.setSize i total) i).inode i = { mid.inode i with size := total } :=
    update_self ..
  have inodes : ∀ j ≠ i, (iupdate sb (mid.setSize i total) i).inode j = fs.inode j := fun j differ =>
    (update_of_ne differ ..).trans (others j differ).2
  have all : w' = widths (iupdate sb (mid.setSize i total) i) := by
    funext j
    by_cases same : j = i
    · rw [same, width, widths, this]
      dsimp only
      rw [value]
    · rw [(others j same).1, widths, widths, inodes j same]
  have content : ∀ j < sb.ninodes, ∀ k < 512 * blocks (w' j),
      byte (iupdate sb (mid.setSize i total) i) j k = byte mid j k := by
    intro j inode k inside
    refine (bytes j inode k inside).trans ?_
    rw [byte, byte, ptrs]
    rfl
  refine ⟨⟨by rw [← all]; exact stored, fun j inode => ?_, fun j inode => ?_⟩,
    ⟨by rw [this]; exact value, fun k inside => ?_⟩,
    fun j inode differ g old => ⟨?_, fun k inside => ?_⟩⟩
  · by_cases same : j = i
    · rw [same, this]
      exact value ▸ small
    · rw [inodes j same]
      exact tidy.sizes j inode
  · rw [dinode_iupdate]
    by_cases same : j = i
    · rw [if_pos same, same]
      rfl
    · rw [if_neg same, inodes j same, ← tidy.synced j inode, dinode, dinode]
      exact congrArg (fun block => wordsAt block (64 * (j % 8)) 16)
        (lower _ (layout.iblock_lt inode))
  · rw [content i ‹_› k, file k inside]
    rw [width, blocks_need]
    omega
  · rw [inodes j differ]
    exact old.1
  · have reach := Tidy.reach j fs
    have inside' := inside
    rw [← old.1] at inside'
    rw [content j inode k (by rw [(others j differ).1]; omega),
      apart j inode differ k (by omega), old.2 k inside]

theorem Wrote.beyond {mid : Fs} {w' : Nat → Nat} {src : Bytes} {off n : Nat} {f : File}
    (wrote : Wrote sb start i src off 0 n fs (widths fs) mid w') (tidy : Tidy sb start fs)
    (layout : Layout sb start) (inode : i < sb.ninodes) (shows : Shows fs i f) (positive : 0 < n)
    (before : off ≤ f.size) (longer : f.size < off + n) (small : off + n ≤ 71680) {total : UInt32}
    (value : total.toNat = off + n) :
    Updated sb start i fs (iupdate sb (mid.setSize i total) i) (f.write off n src) := by
  have grown : (f.write off n src).size = off + n := by
    change (if n = 0 then f.size else max f.size (off + n)) = off + n
    split <;> omega
  refine Updated.store tidy layout inode wrote.sound wrote.others wrote.lower wrote.apart
    (fun k inside => wrote.file shows before inside) (by rw [grown, value]) (by rw [grown]; exact small)
    ?_
  have more := need_mono (Nat.le_of_lt longer)
  rw [wrote.width, if_neg (Nat.ne_of_gt positive), widths, shows.1, grown]
  omega

section
variable (tidy : Tidy sb start fs) (layout : Layout sb start) (inode : i < sb.ninodes) {f : File}
  (shows : Shows fs i f) (off n : UInt32)
include tidy layout inode shows

theorem writei_spec (src : Bytes) :
    (writei sb fs i off n src = some (false, fs) ∧
        ¬ (off.toNat ≤ f.size ∧ off.toNat + n.toNat ≤ 71680)) ∨
      (off.toNat ≤ f.size ∧ off.toNat + n.toNat ≤ 71680 ∧ ((writei sb fs i off n src = none ∧
            Short sb fs (widths fs i) (off.toNat + n.toNat)) ∨
          ∃ fs', writei sb fs i off n src = some (true, fs') ∧
            Updated sb start i fs fs' (f.write off.toNat n.toNat src))) := by
  obtain ⟨size, bytes⟩ := shows
  have refuses := @writei_refuses (fs.inode i).size off n
  rw [size] at refuses
  unfold writei
  by_cases early : (fs.inode i).size < off ∨ off + n < off
  · rw [if_pos early]
    exact Or.inl ⟨rfl, refuses.mp (Or.inl early)⟩
  · by_cases late : 71680 < off + n
    · rw [if_neg early, if_pos late]
      exact Or.inl ⟨rfl, refuses.mp (Or.inr late)⟩
    · have accepted := not_not.mp (fun no => not_or.mpr ⟨early, late⟩ (refuses.mpr no))
      obtain ⟨within, small⟩ := accepted
      refine Or.inr ⟨within, small, ?_⟩
      rw [if_neg early, if_neg late]
      have reach := Tidy.reach i fs
      rcases @writeLoop_spec sb start i src layout inode n.toNat fs (widths fs) off.toNat 0 n.toNat
        tidy.sound (Nat.le_refl _) small (by omega) with ⟨none, full⟩ | ⟨mid, w', result, wrote⟩
      · rw [none]
        exact Or.inl ⟨rfl, full⟩
      · rw [result]
        dsimp only
        have total : (off + n).toNat = off.toNat + n.toNat := by
          rw [UInt32.toNat_add]
          omega
        have same := wrote.head
        refine Or.inr ?_
        by_cases grows : 0 < n ∧ (mid.inode i).size < off + n
        · rw [if_pos grows]
          have positive : 0 < n.toNat := UInt32.lt_iff_toNat_lt.mp grows.1
          have longer := UInt32.lt_iff_toNat_lt.mp grows.2
          rw [same, size, total] at longer
          exact ⟨_, rfl, wrote.beyond tidy layout inode ⟨size, bytes⟩ positive within longer small
            total⟩
        · rw [if_neg grows]
          refine ⟨_, rfl, wrote.within tidy layout ⟨size, bytes⟩ ?_ within⟩
          rw [UInt32.lt_iff_toNat_lt, UInt32.lt_iff_toNat_lt, same, size, total,
            UInt32.toNat_zero] at grows
          omega

/-- `readi` returns the bytes of the file and changes nothing else. -/
theorem readi_spec (dst : Bytes) :
    (readi sb fs i off n dst = some (none, dst, fs) ∧
        ¬ (off.toNat ≤ f.size ∧ off.toNat + n.toNat < 4294967296)) ∨
      (off.toNat ≤ f.size ∧ off.toNat + n.toNat < 4294967296 ∧
        ∃ count dst', readi sb fs i off n dst = some (some count, dst', fs) ∧
          count.toNat = min n.toNat (f.size - off.toNat) ∧
          ∀ k, dst' k = if k < count.toNat then f.bytes (off.toNat + k) else dst k) := by
  obtain ⟨size, bytes⟩ := shows
  have sum := UInt32.toNat_add off n
  have refuses : ((fs.inode i).size < off ∨ off + n < off) ↔
      ¬ (off.toNat ≤ f.size ∧ off.toNat + n.toNat < 4294967296) := by
    have one := off.toNat_lt
    have two := n.toNat_lt
    simp only [UInt32.lt_iff_toNat_lt, sum, size]
    omega
  unfold readi
  by_cases early : (fs.inode i).size < off ∨ off + n < off
  · dsimp only
    rw [if_pos early]
    exact Or.inl ⟨rfl, refuses.mp early⟩
  · obtain ⟨within, small⟩ := not_not.mp (fun no => early (refuses.mpr no))
    refine Or.inr ⟨within, small, ?_⟩
    dsimp only
    rw [if_neg early]
    generalize trimmed : (if (fs.inode i).size < off + n then (fs.inode i).size - off else n) = count
    have value : count.toNat = min n.toNat (f.size - off.toNat) := by
      rw [← trimmed, ← size]
      by_cases long : (fs.inode i).size < off + n
      · rw [if_pos long, UInt32.toNat_sub_of_le _ _ (UInt32.le_iff_toNat_le.mpr (by omega))]
        rw [UInt32.lt_iff_toNat_lt, sum] at long
        omega
      · rw [if_neg long]
        rw [UInt32.lt_iff_toNat_lt, sum] at long
        omega
    have reach := Tidy.reach i fs
    obtain ⟨dst', result, read⟩ := @readLoop_spec sb start fs (widths fs) i layout inode tidy.sound
      count.toNat off.toNat 0 count.toNat dst (Nat.le_refl _) (by omega)
    rw [result]
    refine ⟨count, dst', rfl, value, fun k => ?_⟩
    rw [read k]
    by_cases inside : k < count.toNat
    · rw [if_pos (by omega), if_pos inside, Nat.sub_zero, bytes _ (by omega)]
    · rw [if_neg (by omega), if_neg inside]
end

end Inodes

section Truncation
variable {sb : Super} {start : Nat} {fs fs' : Fs} {i : Nat} {used : Set (Nat × Nat)}

structure Released (sb : Super) (start i : Nat) (gone : Nat → Prop) (used : Set (Nat × Nat))
    (fs fs' : Fs) : Prop where
  owned : Owned (ptr fs') {s | s ∈ used ∧ ¬ (s.1 = i ∧ gone s.2)} (marked sb fs') (region sb start)
  reserved : ∀ b < start, bit sb fs' b = true
  disk : ∀ c, c < sb.bmapstart ∨ start ≤ c → fs'.disk c = fs.disk c
  others : ∀ j ≠ i, fs'.inode j = fs.inode j
  zeroed : ∀ k, (fs'.inode i).addrs k = (fs.inode i).addrs k ∨
    (gone k ∧ (fs'.inode i).addrs k = 0)

theorem released_one (layout : Layout sb start)
    (owned : Owned (ptr fs) used (marked sb fs) (region sb start))
    (reserved : ∀ b < start, bit sb fs b = true) {t : Nat} (here : (i, t) ∈ used) :
    ∃ mid, bfree sb fs (ptr fs (i, t)) = some mid ∧ Freed sb start fs mid (ptr fs (i, t)) ∧
      ∀ fs', fs'.disk = mid.disk → (∀ s ∈ used, s ≠ (i, t) → ptr fs' s = ptr fs s) →
        Owned (ptr fs') {s | s ∈ used ∧ ¬ (s.1 = i ∧ s.2 = t)} (marked sb fs') (region sb start) ∧
          ∀ b < start, bit sb fs' b = true := by
  obtain ⟨⟨low, high⟩, mark⟩ := owned.inside (i, t) here
  obtain ⟨mid, result, freed⟩ := bfree_spec layout high mark
  refine ⟨mid, result, freed, fun fs' disk ptrs => ?_⟩
  have bits : ∀ b, bit sb fs' b = bit sb mid b := by
    intro b
    rw [bit, bit, disk]
  refine ⟨owned.drop here ptrs (fun s => ?_) fun c part => ?_, fun b below => ?_⟩
  · obtain ⟨j, k⟩ := s
    change (j, k) ∈ used ∧ ¬ (j = i ∧ k = t) ↔ (j, k) ∈ used ∧ (j, k) ≠ (i, t)
    rw [ne_eq, Prod.mk.injEq]
  · change bit sb fs' c = true ↔ bit sb fs c = true ∧ c ≠ ptr fs (i, t)
    rw [bits c, freed.bits c part.2]
    by_cases same : c = ptr fs (i, t) <;> simp [same]
  · have differ : b ≠ ptr fs (i, t) := by
      have low : start ≤ ptr fs (i, t) := low
      omega
    rw [bits b, freed.bits b (Nat.lt_of_lt_of_le below layout.data), if_neg differ]
    exact reserved b below

theorem Released.nothing {gone : Nat → Prop}
    (owned : Owned (ptr fs) used (marked sb fs) (region sb start))
    (reserved : ∀ b < start, bit sb fs b = true) (absent : ∀ s, gone s → (i, s) ∉ used) :
    Released sb start i gone used fs fs := by
  refine ⟨owned.congr (fun _ _ => rfl) (fun s => ?_) fun _ _ => Iff.rfl, reserved, fun _ _ => rfl,
    fun _ _ => rfl, fun _ => Or.inl rfl⟩
  obtain ⟨j, s⟩ := s
  refine ⟨fun here => here.1, fun here => ⟨here, ?_⟩⟩
  rintro ⟨rfl, out⟩
  exact absent s out here

theorem Released.trans {fs'' : Fs} {first second gone : Nat → Prop}
    (one : Released sb start i first used fs fs')
    (two : Released sb start i second {s | s ∈ used ∧ ¬ (s.1 = i ∧ first s.2)} fs' fs'')
    (all : ∀ k, first k ∨ second k → gone k)
    (only : ∀ k, (i, k) ∈ used → gone k → first k ∨ second k) :
    Released sb start i gone used fs fs'' where
  owned := by
    refine two.owned.congr (fun _ _ => rfl) (fun s => ?_) fun _ _ => Iff.rfl
    obtain ⟨j, s⟩ := s
    constructor
    · exact fun ⟨here, no⟩ => ⟨⟨here, fun ⟨mine, gone⟩ => no ⟨mine, all s (Or.inl gone)⟩⟩,
        fun ⟨mine, gone⟩ => no ⟨mine, all s (Or.inr gone)⟩⟩
    · rintro ⟨⟨here, no⟩, nor⟩
      refine ⟨here, ?_⟩
      rintro ⟨rfl, gone⟩
      exact (only s here gone).elim (fun gone => no ⟨rfl, gone⟩) fun gone => nor ⟨rfl, gone⟩
  reserved := two.reserved
  disk c part := (two.disk c part).trans (one.disk c part)
  others j differ := (two.others j differ).trans (one.others j differ)
  zeroed k := by
    rcases two.zeroed k with same | ⟨gone, zero⟩
    · rcases one.zeroed k with same' | ⟨gone, zero⟩
      · exact Or.inl (same.trans same')
      · exact Or.inr ⟨all k (Or.inl gone), same.trans zero⟩
    · exact Or.inr ⟨all k (Or.inr gone), zero⟩

def Rooted (used : Set (Nat × Nat)) : Prop := ∀ j s, (j, s) ∈ used → 12 < s → (j, 12) ∈ used

theorem Rooted.minus {used : Set (Nat × Nat)} (rooted : Rooted used) (gone : Nat → Prop)
    (block : ¬ gone 12) : Rooted {s | s ∈ used ∧ ¬ (s.1 = i ∧ gone s.2)} :=
  fun j s here above => ⟨rooted j s here.1 above, fun both => block both.2⟩

theorem released_direct (layout : Layout sb start)
    (owned : Owned (ptr fs) used (marked sb fs) (region sb start))
    (reserved : ∀ b < start, bit sb fs b = true) (rooted : Rooted used) {k : Nat} (small : k ≤ 12)
    (here : (i, k) ∈ used) (last : k = 12 → ∀ s, (i, s) ∈ used → s ≤ 12) :
    ∃ mid, bfree sb fs ((fs.inode i).addrs k).toNat = some mid ∧
      Released sb start i (· = k) used fs (mid.setAddr i k 0) := by
  obtain ⟨mid, result, freed, rest⟩ := released_one layout owned reserved here
  rw [ptr_direct _ _ small] at result
  have others : ∀ j ≠ i, (mid.setAddr i k 0).inode j = fs.inode j := fun j differ => by
    rw [setAddr_other _ _ _ differ, freed.inode]
  have ptrs : ∀ s ∈ used, s ≠ (i, k) → ptr (mid.setAddr i k 0) s = ptr fs s := by
    rintro ⟨j, s⟩ used differ
    have disk : 12 < s → (mid.setAddr i k 0).disk (ptr fs (j, 12)) = fs.disk (ptr fs (j, 12)) :=
      fun above => freed.disk _ (Or.inr (owned.inside _ (rooted j s used above)).1.1)
    by_cases same : j = i
    · subst same
      have apart : s ≠ k := fun equal => differ (by rw [equal])
      by_cases direct : s ≤ 12
      · rw [ptr_direct _ _ direct, ptr_direct _ _ direct, setAddr_addrs, if_neg apart, freed.inode]
      · have below : k ≠ 12 := fun equal => direct (last equal s used)
        have above : 12 < s := Nat.lt_of_not_le direct
        have block : ptr (mid.setAddr j k 0) (j, 12) = ptr fs (j, 12) := by
          rw [ptr_direct _ _ (Nat.le_refl _), ptr_direct _ _ (Nat.le_refl _), setAddr_addrs,
            if_neg (Ne.symm below), freed.inode]
        rw [ptr_entry _ _ above, ptr_entry _ _ above, block, disk above]
    · exact ptr_congr (fun _ _ => by rw [others j same]) disk
  obtain ⟨owned', reserved'⟩ := rest (mid.setAddr i k 0) rfl ptrs
  refine ⟨mid, result, owned', reserved', freed.disk, others, fun other => ?_⟩
  rw [setAddr_addrs, freed.inode]
  by_cases same : other = k
  · exact Or.inr ⟨same, if_pos same⟩
  · exact Or.inl (if_neg same)

theorem freeDirect_spec (layout : Layout sb start) (ks : List Nat) :
    ∀ {fs : Fs} {used : Set (Nat × Nat)}, ks.Nodup → (∀ k ∈ ks, k < 12) →
      Owned (ptr fs) used (marked sb fs) (region sb start) → (∀ b < start, bit sb fs b = true) →
      Rooted used → (∀ k ∈ ks, (i, k) ∈ used ↔ (fs.inode i).addrs k ≠ 0) →
      ∃ fs', freeDirect sb i ks fs = some fs' ∧ Released sb start i (· ∈ ks) used fs fs' ∧
        ∀ k ∈ ks, (fs'.inode i).addrs k = 0 := by
  induction ks with
  | nil =>
    intro fs used _ _ owned reserved _ _
    exact ⟨fs, rfl, Released.nothing owned reserved (fun _ here => by cases here),
      fun _ here => by cases here⟩
  | cons k rest ih =>
    intro fs used distinct small owned reserved rooted holds
    obtain ⟨fresh, distinct⟩ := nodup_cons.mp distinct
    have below : k < 12 := small k mem_cons_self
    -- the state behind the first round, and what it has released
    have round : ∃ mid, freeDirect sb i (k :: rest) fs = freeDirect sb i rest mid ∧
        Released sb start i (· = k) used fs mid ∧ (mid.inode i).addrs k = 0 := by
      by_cases zero : (fs.inode i).addrs k = 0
      · have absent : (i, k) ∉ used := fun here => (holds k mem_cons_self).mp here zero
        exact ⟨fs, by rw [freeDirect, if_pos zero],
          Released.nothing owned reserved fun _ same => same ▸ absent, zero⟩
      · obtain ⟨mid, result, released⟩ := released_direct layout owned reserved rooted
          (Nat.le_of_lt below) ((holds k mem_cons_self).mpr zero) fun equal => by omega
        refine ⟨mid.setAddr i k 0, ?_, released, ?_⟩
        · rw [freeDirect, if_neg zero, result]
        · rw [setAddr_addrs, if_pos rfl]
    obtain ⟨mid, result, one, zero⟩ := round
    have same : ∀ other ≠ k, (mid.inode i).addrs other = (fs.inode i).addrs other :=
      fun other differ => (one.zeroed other).resolve_right fun gone => differ gone.1
    obtain ⟨fs', found, two, zeros⟩ := ih distinct
      (fun other here => small other (mem_cons_of_mem _ here)) one.owned one.reserved
      (rooted.minus (· = k) (Nat.ne_of_gt below))
      (fun other here => by
        have differ : other ≠ k := fun equal => fresh (equal ▸ here)
        rw [same other differ, ← holds other (mem_cons_of_mem _ here)]
        exact ⟨fun here => here.1, fun here => ⟨here, fun gone => differ gone.2⟩⟩)
    refine ⟨fs', result.trans found, one.trans two (fun _ => mem_cons.mpr)
      fun _ _ => mem_cons.mp, fun other here => ?_⟩
    rcases mem_cons.mp here with rfl | here
    · rcases two.zeroed other with same | ⟨gone, _⟩
      · exact same.trans zero
      · exact absurd gone fresh
    · exact zeros other here

theorem freeEntries_spec (layout : Layout sb start) (js : List Nat) :
    ∀ {fs : Fs} {used : Set (Nat × Nat)}, js.Nodup →
      Owned (ptr fs) used (marked sb fs) (region sb start) → (∀ b < start, bit sb fs b = true) →
      Rooted used → (i, 12) ∈ used → (∀ j ∈ js, (i, j + 13) ∈ used ↔ ptr fs (i, j + 13) ≠ 0) →
      ∃ fs', freeEntries sb (ptr fs (i, 12)) js fs = some fs' ∧
        Released sb start i (fun s => ∃ j ∈ js, s = j + 13) used fs fs' ∧ fs'.inode = fs.inode := by
  induction js with
  | nil =>
    intro fs used _ owned reserved _ _ _
    refine ⟨fs, rfl, Released.nothing owned reserved ?_, rfl⟩
    rintro _ ⟨_, here, _⟩
    cases here
  | cons j rest ih =>
    intro fs used distinct owned reserved rooted block holds
    obtain ⟨fresh, distinct⟩ := nodup_cons.mp distinct
    have named : (wordAt (fs.disk (ptr fs (i, 12))) (4 * j)).toNat = ptr fs (i, j + 13) := by
      rw [ptr_entry fs i (by omega : 12 < j + 13), Nat.add_sub_cancel]
    have high : start ≤ ptr fs (i, 12) := (owned.inside _ block).1.1
    have round : ∃ mid, freeEntries sb (ptr fs (i, 12)) (j :: rest) fs =
        freeEntries sb (ptr fs (i, 12)) rest mid ∧
        Released sb start i (· = j + 13) used fs mid ∧ mid.inode = fs.inode := by
      by_cases zero : wordAt (fs.disk (ptr fs (i, 12))) (4 * j) = 0
      · have absent : (i, j + 13) ∉ used := by
          intro here
          refine (holds j mem_cons_self).mp here ?_
          rw [← named, zero]
          rfl
        exact ⟨fs, by rw [freeEntries, if_pos zero],
          Released.nothing owned reserved fun _ same => same ▸ absent, rfl⟩
      · have here : (i, j + 13) ∈ used := (holds j mem_cons_self).mpr fun none =>
          zero (UInt32.toNat_inj.mp (named.trans none))
        obtain ⟨mid, result, freed, after⟩ := released_one layout owned reserved here
        have ptrs : ∀ s ∈ used, s ≠ (i, j + 13) → ptr mid s = ptr fs s := by
          rintro ⟨other, s⟩ here _
          exact ptr_congr (fun _ _ => by rw [freed.inode]) fun above =>
            freed.disk _ (Or.inr (owned.inside _ (rooted other s here above)).1.1)
        obtain ⟨owned', reserved'⟩ := after mid rfl ptrs
        refine ⟨mid, ?_, ⟨owned', reserved', freed.disk, fun _ _ => by rw [freed.inode], fun _ =>
          Or.inl (by rw [freed.inode])⟩, freed.inode⟩
        rw [freeEntries, if_neg zero, named, result]
    obtain ⟨mid, result, one, inodes⟩ := round
    have block' : ptr mid (i, 12) = ptr fs (i, 12) := by
      rw [ptr_direct _ _ (Nat.le_refl _), ptr_direct _ _ (Nat.le_refl _), inodes]
    have entries : ∀ s, ptr mid (i, s) = ptr fs (i, s) := fun s =>
      ptr_congr (fun _ _ => by rw [inodes]) fun _ => one.disk _ (Or.inr high)
    have apart : 12 ≠ j + 13 := by omega
    obtain ⟨fs', found, two, inodes'⟩ := ih distinct one.owned one.reserved
      (rooted.minus (· = j + 13) apart)
      ⟨block, fun gone => apart gone.2⟩
      (fun other here => by
        have differ : other ≠ j := fun equal => fresh (equal ▸ here)
        rw [entries, ← holds other (mem_cons_of_mem _ here)]
        exact ⟨fun here => here.1, fun here => ⟨here, fun gone => by
          have clash : other + 13 = j + 13 := gone.2
          omega⟩⟩)
    rw [block'] at found
    refine ⟨fs', result.trans found, one.trans two (fun s => ?_) fun s _ => ?_,
      inodes'.trans inodes⟩ <;>
    simp only [mem_cons, exists_eq_or_imp, imp_self]

/-- The second half of `itrunc` frees the indirect block with its entries. -/
theorem freeIndirect_spec (layout : Layout sb start)
    (owned : Owned (ptr fs) used (marked sb fs) (region sb start))
    (reserved : ∀ b < start, bit sb fs b = true) (rooted : Rooted used)
    (block : (i, 12) ∈ used ↔ (fs.inode i).addrs 12 ≠ 0)
    (entries : (i, 12) ∈ used → ∀ j < 128, (i, j + 13) ∈ used ↔ ptr fs (i, j + 13) ≠ 0)
    (few : ∀ s, (i, s) ∈ used → s < 141) :
    ∃ fs', freeIndirect sb fs i = some fs' ∧ Released sb start i (12 ≤ ·) used fs fs' ∧
      (fs'.inode i).addrs 12 = 0 := by
  unfold freeIndirect
  dsimp only
  by_cases zero : (fs.inode i).addrs 12 = 0
  · have absent : ∀ s, 12 ≤ s → (i, s) ∉ used := by
      intro s above here
      rcases Nat.eq_or_lt_of_le above with rfl | above
      · exact block.mp here zero
      · exact block.mp (rooted i s here above) zero
    rw [if_pos zero]
    exact ⟨fs, rfl, Released.nothing owned reserved absent, zero⟩
  · have here := block.mpr zero
    rw [if_neg zero, ← ptr_direct fs i (Nat.le_refl 12)]
    obtain ⟨mid, result, one, inodes⟩ := freeEntries_spec layout (range 128) nodup_range
      owned reserved rooted here fun j small => entries here j (mem_range.mp small)
    have away : ¬ ∃ j ∈ range 128, 12 = j + 13 := by
      rintro ⟨j, _, clash⟩
      omega
    have named : ptr fs (i, 12) = ((mid.inode i).addrs 12).toNat := by
      rw [ptr_direct _ _ (Nat.le_refl _), inodes]
    obtain ⟨last, freed, two⟩ := released_direct layout one.owned one.reserved
      (rooted.minus (fun s => ∃ j ∈ range 128, s = j + 13) away)
      (Nat.le_refl 12) ⟨here, fun both => away both.2⟩ fun _ s there => by
        by_contra above
        have small := few s there.1
        exact there.2 ⟨rfl, s - 13, mem_range.mpr (by omega), by omega⟩
    rw [result]
    dsimp only
    rw [named, freed]
    refine ⟨_, rfl, one.trans two ?_ fun s there above => ?_, ?_⟩
    · rintro k (⟨index, _, rfl⟩ | rfl) <;> omega
    · have small := few s there
      rcases Nat.eq_or_lt_of_le above with equal | above
      · exact Or.inr equal.symm
      · exact Or.inl ⟨s - 13, mem_range.mpr (by omega), by omega⟩
    · rw [setAddr_addrs, if_pos rfl]

/-- `itrunc` never panics; it gives back all blocks of the file and leaves the others. -/
theorem itrunc_spec (tidy : Tidy sb start fs) (layout : Layout sb start) (inode : i < sb.ninodes) :
    ∃ fs', itrunc sb fs i = some fs' ∧ Updated sb start i fs fs' ⟨0, fun _ => 0⟩ := by
  have sound := tidy.sound
  have rooted : Rooted (slots sb (widths fs)) := fun j s here above =>
    ⟨here.1, Nat.lt_trans above here.2⟩
  have filled : ∀ k ≤ 12, (i, k) ∈ slots sb (widths fs) ↔ (fs.inode i).addrs k ≠ 0 := by
    intro k small
    constructor
    · intro here zero
      have nonzero := sound.ptr_ne_zero layout inode here.2
      rw [ptr_direct _ _ small, zero] at nonzero
      exact nonzero rfl
    · intro nonzero
      by_contra absent
      refine nonzero (sound.blank i inode k ?_ small)
      exact Nat.le_of_not_lt fun inside => absent ⟨inode, inside⟩
  obtain ⟨mid, first, one, zeros⟩ := freeDirect_spec layout (range 12) nodup_range
    (fun k here => mem_range.mp here) sound.owned sound.reserved rooted
    (fun k here => filled k (Nat.le_of_lt (mem_range.mp here)))
  have far : ¬ 12 ∈ range 12 := by simp
  have block : (mid.inode i).addrs 12 = (fs.inode i).addrs 12 :=
    (one.zeroed 12).resolve_right fun gone => far gone.1
  have entries : ∀ s, 12 < s → 12 < widths fs i → ptr mid (i, s) = ptr fs (i, s) := by
    intro s above wide
    have same : ptr mid (i, 12) = ptr fs (i, 12) := by
      rw [ptr_direct _ _ (Nat.le_refl _), ptr_direct _ _ (Nat.le_refl _), block]
    rw [ptr_entry _ _ above, ptr_entry _ _ above, same,
      one.disk _ (Or.inr (sound.at_slot inode wide).1)]
  obtain ⟨last, second, two, zero⟩ := freeIndirect_spec layout one.owned one.reserved
    (rooted.minus (· ∈ range 12) far) (i := i)
    (by
      rw [block, ← filled 12 (Nat.le_refl _)]
      exact ⟨fun here => here.1, fun here => ⟨here, fun gone => far gone.2⟩⟩)
    (fun here j small => by
      have wide : 12 < widths fs i := here.1.2
      rw [entries (j + 13) (by omega) wide]
      constructor
      · exact fun there => sound.ptr_ne_zero layout inode there.1.2
      · intro nonzero
        refine ⟨⟨inode, ?_⟩, fun gone => ?_⟩
        · by_contra absent
          exact nonzero (sound.rest i inode wide (j + 13) (Nat.le_of_not_lt absent) (by omega))
        · have clash := mem_range.mp gone.2
          dsimp only at clash
          omega)
    (fun s here => Nat.lt_of_lt_of_le here.1.2 (sound.few i inode))
  have inodes : ∀ j ≠ i, last.inode j = fs.inode j := fun j differ =>
    (two.others j differ).trans (one.others j differ)
  have disk : ∀ c, c < sb.bmapstart ∨ start ≤ c → last.disk c = fs.disk c := fun c part =>
    (two.disk c part).trans (one.disk c part)
  have ptrs : ∀ j < sb.ninodes, j ≠ i → ∀ s, (12 < s → 12 < widths fs j) →
      ptr last (j, s) = ptr fs (j, s) := fun j inode differ s reach =>
    ptr_congr (fun _ _ => by rw [inodes j differ]) fun above =>
      disk _ (Or.inr (sound.at_slot inode (reach above)).1)
  have cleared : Sound sb start last (update (widths fs) i 0) := by
    refine {
      owned := two.owned.congr (fun _ _ => rfl) (fun s => ?_) (fun _ _ => Iff.rfl)
      reserved := two.reserved, blank := fun j inode k above small => ?_
      rest := fun j inode wide s above inside => ?_, few := fun j inode => ?_ }
    · obtain ⟨j, s⟩ := s
      change j < sb.ninodes ∧ s < update (widths fs) i 0 j ↔
        (((j < sb.ninodes ∧ s < widths fs j) ∧ ¬ (j = i ∧ s ∈ range 12)) ∧ ¬ (j = i ∧ 12 ≤ s))
      rw [mem_range]
      by_cases same : j = i
      · rw [same, update_self]
        omega
      · rw [update_of_ne same]
        simp [same]
    · by_cases same : j = i
      · subst same
        rcases Nat.lt_or_ge k 12 with direct | top
        · rcases two.zeroed k with kept | ⟨_, zero⟩
          · exact kept.trans (zeros k (mem_range.mpr direct))
          · exact zero
        · rw [Nat.le_antisymm small top]
          exact zero
      · rw [update_of_ne same] at above
        rw [inodes j same]
        exact sound.blank j inode k above small
    · by_cases same : j = i
      · rw [same, update_self] at wide
        omega
      · rw [update_of_ne same] at wide above
        rw [ptrs j inode same s fun _ => wide]
        exact sound.rest j inode wide s above inside
    · by_cases same : j = i
      · rw [same, update_self]
        omega
      · rw [update_of_ne same]
        exact sound.few j inode
  refine ⟨iupdate sb (last.setSize i 0) i, by rw [itrunc, first]; dsimp only; rw [second], ?_⟩
  refine Updated.store tidy layout inode cleared
    (fun j differ => ⟨update_of_ne differ .., inodes j differ⟩)
    (fun c low => disk c (Or.inl low)) (fun j inode differ k inside => ?_)
    (fun _ inside => absurd inside (Nat.not_lt_zero _)) rfl (Nat.zero_le _) (update_self ..)
  have used := lt_blocks inside
  rw [byte, byte, ptrs j inode differ _ fun above => Nat.lt_trans above used,
    disk _ (Or.inr (sound.at_slot inode used).1)]

end Truncation

end OsProjects.InodeFiles
