import OsProjects.InodeContents

/-!
Runs of `writei` and `itrunc` on any files. The files behave as byte strings of
their own, what `readi` returns is what was written last, and the bitmap marks
exactly the blocks that some file holds. The inodes on the disk are never behind
those in memory.
-/

namespace OsProjects.InodeFiles

open ByteStore BitMaps Ownership Runs Function

inductive Call where
  | writei (i : Nat) (off n : UInt32) (src : Bytes)
  | itrunc (i : Nat)

section Runs
variable {sb : Super} {start : Nat}

def step (sb : Super) : Option Fs → Call → Option Fs
  | some fs, .writei i off n src => (writei sb fs i off n src).map Prod.snd
  | some fs, .itrunc i => itrunc sb fs i
  | none, _ => none

def Possible (sb : Super) (_ : Option Fs) : Call → Prop
  | .writei i _ _ _ => i < sb.ninodes
  | .itrunc i => i < sb.ninodes

instance (state : Option Fs) : (call : Call) → Decidable (Possible sb state call)
  | .writei i _ _ _ => inferInstanceAs (Decidable (i < sb.ninodes))
  | .itrunc i => inferInstanceAs (Decidable (i < sb.ninodes))

def File.writei (f : File) (off n : Nat) (src : Bytes) : File :=
  if off ≤ f.size ∧ off + n ≤ 71680 then f.write off n src else f

def files (before : Nat → File) : Call → Nat → File
  | .writei i off n src => update before i ((before i).writei off.toNat n.toNat src)
  | .itrunc i => update before i ⟨0, fun _ => 0⟩

def contents (fs : Fs) : Nat → File := fun i => ⟨(fs.inode i).size.toNat, byte fs i⟩

structure Kept (sb : Super) (start : Nat) (fs : Fs) (now : Nat → File) : Prop where
  tidy : Tidy sb start fs
  shows : ∀ i < sb.ninodes, Shows fs i (now i)

theorem Updated.kept {fs fs' : Fs} {now : Nat → File} {i : Nat} {f : File}
    (kept : Kept sb start fs now) (updated : Updated sb start i fs fs' f) :
    Kept sb start fs' (update now i f) := by
  refine ⟨updated.tidy, fun j inode => ?_⟩
  by_cases same : j = i
  · rw [same, update_self]
    exact updated.shows
  · rw [update_of_ne same]
    exact updated.others j inode same _ (kept.shows j inode)

def Exhausts (sb : Super) (fs : Fs) : Call → Prop
  | .writei i off n _ => off.toNat ≤ (fs.inode i).size.toNat ∧ off.toNat + n.toNat ≤ 71680 ∧
      Short sb fs (widths fs i) (off.toNat + n.toNat)
  | .itrunc _ => False

/-- A call goes as on byte strings, or `balloc` finds no free block. -/
theorem Kept.step {fs : Fs} {now : Nat → File} (kept : Kept sb start fs now)
    (layout : Layout sb start) {call : Call} (possible : Possible sb (some fs) call) :
    (∃ fs', InodeFiles.step sb (some fs) call = some fs' ∧ Kept sb start fs' (files now call)) ∨
      (InodeFiles.step sb (some fs) call = none ∧ Exhausts sb fs call) := by
  cases call with
  | writei i off n src =>
    have inode : i < sb.ninodes := possible
    dsimp only [InodeFiles.step, files]
    rcases writei_spec kept.tidy layout inode (kept.shows i inode) off n src with
      ⟨result, refused⟩ | ⟨within, small, ⟨result, short⟩ | ⟨fs', result, updated⟩⟩
    · rw [result, File.writei, if_neg refused, update_eq_self]
      exact Or.inl ⟨fs, rfl, kept⟩
    · have size := (kept.shows i inode).1
      rw [result]
      exact Or.inr ⟨rfl, size ▸ within, small, short⟩
    · rw [result, File.writei, if_pos ⟨within, small⟩]
      exact Or.inl ⟨fs', rfl, updated.kept kept⟩
  | itrunc i =>
    obtain ⟨fs', result, updated⟩ := itrunc_spec kept.tidy layout possible
    exact Or.inl ⟨fs', result, updated.kept kept⟩

def OutOfBlocks (sb : Super) (fs : Fs) (calls : List Call) : Prop :=
  ∃ done call rest mid, calls = done ++ call :: rest ∧ run (step sb) (some fs) done = some mid ∧
    Exhausts sb mid call

theorem OutOfBlocks.later {fs fs' : Fs} {call : Call} {rest : List Call}
    (result : step sb (some fs) call = some fs') (out : OutOfBlocks sb fs' rest) :
    OutOfBlocks sb fs (call :: rest) := by
  obtain ⟨done, last, behind, mid, rfl, reached, exhausts⟩ := out
  refine ⟨call :: done, last, behind, mid, rfl, ?_, exhausts⟩
  rw [run_cons, result, reached]

theorem kept_run {fs : Fs} {calls : List Call} (layout : Layout sb start) (tidy : Tidy sb start fs)
    (possible : Allowed (step sb) (Possible sb) (some fs) calls) :
    (∃ fs', run (step sb) (some fs) calls = some fs' ∧
        Kept sb start fs' (run files (contents fs) calls)) ∨
      (run (step sb) (some fs) calls = none ∧ OutOfBlocks sb fs calls) := by
  have stays : ∀ calls, run (step sb) none calls = none := fun calls => by
    induction calls with
    | nil => rfl
    | cons call rest ih => exact ih
  have all : ∀ (calls : List Call) {now : Nat → File} {fs : Fs}, Kept sb start fs now →
      Allowed (step sb) (Possible sb) (some fs) calls →
      (∃ fs', run (step sb) (some fs) calls = some fs' ∧ Kept sb start fs' (run files now calls)) ∨
        (run (step sb) (some fs) calls = none ∧ OutOfBlocks sb fs calls) := by
    intro calls
    induction calls with
    | nil => exact fun kept _ => Or.inl ⟨_, rfl, kept⟩
    | cons call rest ih =>
      intro now fs kept possible
      rw [run_cons, run_cons]
      rcases kept.step layout possible.1 with ⟨fs', result, kept'⟩ | ⟨result, exhausts⟩
      · rw [result]
        refine (ih kept' (result ▸ possible.2)).imp_right fun ⟨ends, out⟩ => ⟨ends, ?_⟩
        exact out.later result
      · rw [result]
        exact Or.inr ⟨stays rest, [], call, rest, fs, rfl, rfl, exhausts⟩
  exact all calls ⟨tidy, fun i _ => ⟨rfl, fun _ _ => rfl⟩⟩ possible

/-- Whatever is written to and truncated in whichever files, each file is the byte
string that its own calls make of it, `readi` returns the bytes asked for, up to the
end, and changes nothing, and every inode on the disk is the one in memory; or
`balloc` has panicked in a write that needed more blocks than were free. -/
theorem files_are_byte_strings (fs : Fs) (calls : List Call) (layout : Layout sb start)
    (tidy : Tidy sb start fs) (possible : Allowed (step sb) (Possible sb) (some fs) calls) :
    let now := run files (contents fs) calls
    (∃ fs', run (step sb) (some fs) calls = some fs' ∧
        ∀ i < sb.ninodes, dinode sb fs' i = words (fs'.inode i) ∧ Shows fs' i (now i) ∧
          ∀ off n dst, off.toNat ≤ (now i).size → off.toNat + n.toNat < 4294967296 →
            ∃ count dst', readi sb fs' i off n dst = some (some count, dst', fs') ∧
              count.toNat = min n.toNat ((now i).size - off.toNat) ∧
              ∀ k, dst' k = if k < count.toNat then (now i).bytes (off.toNat + k) else dst k) ∨
      (run (step sb) (some fs) calls = none ∧ OutOfBlocks sb fs calls) := by
  intro now
  refine (kept_run layout tidy possible).imp_left fun ⟨fs', result, kept⟩ => ⟨fs', result, ?_⟩
  intro i inode
  refine ⟨kept.tidy.synced i inode, kept.shows i inode, fun off n dst within small => ?_⟩
  rcases readi_spec kept.tidy layout inode (kept.shows i inode) off n dst with
    ⟨_, refused⟩ | ⟨_, _, read⟩
  · exact absurd ⟨within, small⟩ refused
  · exact read

/-- The place is one of the block numbers of an inode, or an entry of its indirect
block if it has one, and is not 0. -/
def Holds (sb : Super) (fs : Fs) (s : Nat × Nat) (b : Nat) : Prop :=
  s.1 < sb.ninodes ∧ (s.2 ≤ 12 ∨ s.2 < 141 ∧ (fs.inode s.1).addrs 12 ≠ 0) ∧ ptr fs s = b ∧ b ≠ 0

theorem Sound.holds_iff {fs : Fs} {w : Nat → Nat} (sound : Sound sb start fs w)
    (layout : Layout sb start) (s : Nat × Nat) (b : Nat) :
    Holds sb fs s b ↔ s ∈ slots sb w ∧ ptr fs s = b := by
  obtain ⟨i, k⟩ := s
  constructor
  · rintro ⟨inode, place, rfl, nonzero⟩
    refine ⟨⟨inode, ?_⟩, rfl⟩
    change k < w i
    by_contra behind
    rcases place with direct | ⟨small, indirect⟩
    · have blank := sound.blank i inode k (Nat.le_of_not_lt behind) direct
      rw [ptr_direct fs i direct, blank] at nonzero
      exact nonzero rfl
    · have wide : 12 < w i := by
        by_contra narrow
        exact indirect (sound.blank i inode 12 (Nat.le_of_not_lt narrow) (Nat.le_refl 12))
      exact nonzero (sound.rest i inode wide k (Nat.le_of_not_lt behind) small)
  · rintro ⟨⟨inode, used⟩, rfl⟩
    have used : k < w i := used
    have few := sound.few i inode
    refine ⟨inode, ?_, rfl, sound.ptr_ne_zero layout inode used⟩
    by_cases direct : k ≤ 12
    · exact Or.inl direct
    · have indirect := sound.ptr_ne_zero layout inode (show 12 < w i by omega)
      refine Or.inr ⟨by change k < 141; omega, fun zero => indirect ?_⟩
      rw [ptr_direct fs i (Nat.le_refl 12), zero]
      rfl

/-- After every run that has not panicked, a data block is marked in the bitmap
exactly if one block number of one inode is that block, no two block numbers are the
same and none but 0 lies outside the data blocks; and `itrunc` never meets a free
block. -/
theorem marked_blocks_have_one_pointer (fs : Fs) (calls : List Call) (layout : Layout sb start)
    (tidy : Tidy sb start fs) (possible : Allowed (step sb) (Possible sb) (some fs) calls) {fs' : Fs}
    (result : run (step sb) (some fs) calls = some fs') :
    (∀ b, start ≤ b → b < sb.size → (bit sb fs' b = true ↔ ∃! s, Holds sb fs' s b)) ∧
      (∀ s t b, Holds sb fs' s b → Holds sb fs' t b → s = t) ∧
      (∀ s b, Holds sb fs' s b → start ≤ b ∧ b < sb.size) ∧
      ∀ i < sb.ninodes, (itrunc sb fs' i).isSome := by
  rcases kept_run layout tidy possible with ⟨fs'', found, kept⟩ | ⟨none, _⟩
  · rw [result] at found
    cases found
    have owned := kept.tidy.sound.owned
    have holds := kept.tidy.sound.holds_iff layout
    simp only [holds]
    refine ⟨fun b low high => ⟨fun mark => ?_, ?_⟩, ?_, ?_, fun i inode => ?_⟩
    · obtain ⟨s, used, rfl⟩ := owned.named b ⟨low, high⟩ mark
      exact ⟨s, ⟨used, rfl⟩, fun t other => owned.inj t other.1 s used other.2⟩
    · rintro ⟨s, ⟨used, rfl⟩, _⟩
      exact (owned.inside s used).2
    · rintro s t b ⟨used, same⟩ ⟨used', same'⟩
      exact owned.inj s used t used' (same.trans same'.symm)
    · rintro s b ⟨used, rfl⟩
      exact (owned.inside s used).1
    · obtain ⟨after, truncated, _⟩ := itrunc_spec kept.tidy layout inode
      rw [truncated]
      rfl
  · rw [result] at none
    cases none

end Runs

section Fresh
variable {sb : Super} {start : Nat}

/-- The disk that `mkfs` leaves, without its files: the blocks below `start` are
marked, all else is 0. -/
def fresh (sb : Super) (start : Nat) : Fs where
  disk := update (fun _ _ => 0) sb.bmapstart ((List.range start).foldl setBit fun _ => 0)
  inode _ := ⟨0, 0, 0, fun _ => 0⟩

theorem bitAt_zero (b : Nat) : bitAt (fun _ => 0) b = false := by
  rw [bitAt_eq]
  exact Nat.zero_testBit _

theorem bitAt_marks (marks : List Nat) (bytes : Bytes) (b : Nat) :
    bitAt (marks.foldl setBit bytes) b = (bitAt bytes b || decide (b ∈ marks)) := by
  induction marks generalizing bytes with
  | nil => simp
  | cons mark rest ih =>
    rw [List.foldl_cons, ih, bitAt_setBit, Bool.or_assoc]
    by_cases same : b = mark
    · simp [same]
    · simp [same, beq_false_of_ne same]

theorem bit_fresh (small : start ≤ 4096) (b : Nat) :
    bit sb (fresh sb start) b = decide (b < start) := by
  unfold bit fresh
  dsimp only
  by_cases first : b / 4096 = 0
  · have block : bblock sb b = sb.bmapstart := by rw [bblock, first, Nat.add_zero]
    rw [block, update_self, bitAt_marks, bitAt_zero, Bool.false_or,
      show b % 4096 = b by omega]
    simp
  · have block : bblock sb b ≠ sb.bmapstart := by
      unfold bblock
      omega
    rw [update_of_ne block, bitAt_zero]
    exact (decide_eq_false (by omega)).symm

theorem sound_fresh (small : start ≤ 4096) :
    Sound sb start (fresh sb start) (widths (fresh sb start)) := by
  have empty : ∀ s, s ∉ slots sb (widths (fresh sb start)) := fun s used =>
    absurd used.2 (Nat.not_lt_zero _)
  have owned : Owned (ptr (fresh sb start)) (slots sb (widths (fresh sb start)))
      (marked sb (fresh sb start)) (region sb start) := by
    refine ⟨fun s used => absurd used (empty s), fun s used => absurd used (empty s), ?_⟩
    intro b part mark
    have mark : bit sb (fresh sb start) b = true := mark
    rw [bit_fresh small, decide_eq_true_iff] at mark
    exact absurd part.1 (Nat.not_le_of_lt mark)
  have reserved : ∀ b < start, bit sb (fresh sb start) b = true := by
    intro b below
    rw [bit_fresh small, decide_eq_true_iff]
    exact below
  exact {
    owned, reserved, blank := fun _ _ _ _ _ => rfl
    rest := fun _ _ wide => absurd wide (Nat.not_lt_zero _), few := fun _ _ => Nat.zero_le _ }

theorem tidy_fresh (layout : Layout sb start) (small : start ≤ 4096) :
    Tidy sb start (fresh sb start) where
  sound := sound_fresh small
  sizes _ _ := Nat.zero_le _
  synced i inode := by
    have block : iblock sb i ≠ sb.bmapstart := Nat.ne_of_lt (layout.iblock_lt inode)
    unfold dinode fresh
    dsimp only
    rw [update_of_ne block]
    rfl

def small : Super := ⟨32, 8, 2, 3⟩

theorem layout_small : Layout small 4 := by
  constructor <;> decide

def turns : List Call :=
  [.writei 1 0 500 fun _ => 7, .writei 2 0 3 fun _ => 9, .writei 1 500 100 fun k => UInt8.ofNat k,
    .writei 3 0 1000 fun _ => 1, .itrunc 3, .writei 2 3 5 fun _ => 8]

theorem turns_keep_files_apart :
    ∃ fs', run (step small) (some (fresh small 4)) turns = some fs' ∧
      byte fs' 1 550 = 50 ∧ byte fs' 2 4 = 8 := by
  rcases files_are_byte_strings (fresh small 4) turns layout_small
    (tidy_fresh layout_small (by decide)) (by decide) with ⟨fs', result, shows⟩ | ⟨none, _⟩
  · refine ⟨fs', result, ?_, ?_⟩
    · exact ((shows 1 (by decide)).2.1.2 550 (by decide +kernel)).trans (by decide +kernel)
    · exact ((shows 2 (by decide)).2.1.2 4 (by decide +kernel)).trans (by decide +kernel)
  · have done : (run (step small) (some (fresh small 4)) turns).isSome = true := by decide +kernel
    rw [none] at done
    cases done

theorem turns_leave_owned_blocks :
    ∃ fs', run (step small) (some (fresh small 4)) turns = some fs' ∧
      (bit small fs' 6 = true ↔ ∃! s, Holds small fs' s 6) := by
  have done : (run (step small) (some (fresh small 4)) turns).isSome = true := by decide +kernel
  obtain ⟨fs', result⟩ := Option.isSome_iff_exists.mp done
  exact ⟨fs', result, (marked_blocks_have_one_pointer (fresh small 4) turns layout_small
    (tidy_fresh layout_small (by decide)) (by decide) result).1 6 (by decide) (by decide)⟩

end Fresh

end OsProjects.InodeFiles
