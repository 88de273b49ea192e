import OsProjects.FirstFiles

/-!
Every data block has one owner, an inode and a slot of its `direct` array, as
long as no `Unlink` finds its entry outside the first block of the directory.
Such an unlink writes the block it found over `direct[0]`, so that the directory
has the block twice.
-/

namespace OsProjects.SharedBlocks

open UfsLayout FileServer Volume VolumeSound VolumeRefinement MkfsImage Runs ServerRuns
  DirectoryBlocks BlockOwnership DirectorySlots FirstFiles List

variable {g : Geometry} {s : Serv} {v : Vol}

structure BlocksOwned (s : Serv) : Prop where
  region : ∀ inum i, Allocated s inum → i < 30 → (inodeOf s inum).ptr i ≠ minusOne →
    s.super.dataRegionAddr.toNat ≤ ((inodeOf s inum).ptr i).toNat ∧
      ((inodeOf s inum).ptr i).toNat < s.super.dataRegionAddr.toNat + s.super.dataRegionLen.toNat ∧
      dataBit s (((inodeOf s inum).ptr i).toNat - s.super.dataRegionAddr.toNat) = true
  once : ∀ inum inum' i j, Allocated s inum → Allocated s inum' → i < 30 → j < 30 →
    (inodeOf s inum).ptr i ≠ minusOne → (inodeOf s inum).ptr i = (inodeOf s inum').ptr j →
      inum = inum' ∧ i = j

def FirstBlock (s : Serv) : Event → Prop
  | .request (.unlink pinum name) junk => ∀ de addr,
      lookupFile s pinum name (junk.call 0) = some (de, addr) →
        addr / 4096 = (inodeOf s pinum).ptr 0
  | _ => True

theorem blocksOwned (backed : Backed g s v) (single : AllSingle v) : BlocksOwned s := by
  have layout := g.layout
  obtain ⟨sim, sound, tidy⟩ := backed
  have addr : s.super.dataRegionAddr.toNat = g.dataRegionAddr := by
    rw [sim.super]
    exact toNat_ofNat_lt (by omega)
  have len : s.super.dataRegionLen.toNat = g.numData := by
    rw [sim.super]
    exact toNat_ofNat_lt (by omega)
  -- a pointer on the disk is a pointer of the volume
  have pointer : ∀ inum i, Allocated s inum → (inodeOf s inum).ptr i ≠ minusOne →
      v.inodeBit inum.toNat = true ∧
        (v.node inum.toNat).direct i = some ((inodeOf s inum).ptr i).toNat := by
    intro inum i allocated used
    have bit := (allocated_iff sim sound inum).mp allocated
    have inside := sound.inodeBit_lt _ bit
    rw [ne_eq, inodeOf_hole sim inum inside] at used
    obtain ⟨b, mapped⟩ := Option.ne_none_iff_exists'.mp used
    exact ⟨bit, by rw [mapped, inodeOf_ptr sim inum inside mapped]⟩
  constructor
  · intro inum i allocated _ used
    obtain ⟨bit, mapped⟩ := pointer inum i allocated used
    obtain ⟨_, k, bound, set, place⟩ := (sound.node _ bit).pointer i _ mapped
    rw [addr, len, place, Nat.add_sub_cancel_left, dataBit_eq sim k bound]
    exact ⟨Nat.le_add_right _ _, by omega, set⟩
  · intro inum inum' i j allocated allocated' _ _ used same
    obtain ⟨bit, mapped⟩ := pointer inum i allocated used
    obtain ⟨bit', mapped'⟩ := pointer inum' j allocated' (same ▸ used)
    rw [← same] at mapped'
    have inode : inum.toNat = inum'.toNat := by
      by_contra different
      exact tidy.apart _ _ different bit bit' i j _ mapped mapped'
    have equal := UInt32.toNat_inj.mp inode
    subst equal
    exact ⟨rfl, single _ bit i j _ mapped mapped'⟩

theorem not_blocksOwned (backed : Backed g s v) (inum : UInt32) {i j b : Nat}
    (bit : v.inodeBit inum.toNat = true) (small : i < 30) (small' : j < 30) (different : i ≠ j)
    (here : (v.node inum.toNat).direct i = some b)
    (there : (v.node inum.toNat).direct j = some b) : ¬ BlocksOwned s := by
  intro owned
  have inside := backed.sound.inodeBit_lt _ bit
  have allocated := (allocated_iff backed.sim backed.sound inum).mpr bit
  have used : (inodeOf s inum).ptr i ≠ minusOne := by
    rw [ne_eq, inodeOf_hole backed.sim inum inside, here]
    exact Option.some_ne_none b
  have same : (inodeOf s inum).ptr i = (inodeOf s inum).ptr j := by
    rw [← UInt32.toNat_inj, inodeOf_ptr backed.sim inum inside here,
      inodeOf_ptr backed.sim inum inside there]
  exact different (owned.once inum inum i j allocated allocated small small' used same).2

/-- The block of the entry is the one behind the first pointer. -/
theorem firstBlock_iff {pinum : UInt32} {text : List UInt8} {junk : Junk} (backed : Backed g s v)
    (bit : v.inodeBit pinum.toNat = true) (short : text.length ≤ 28) :
    FirstBlock s (.request (.unlink pinum text) junk) ↔
      ∀ i j, v.lookup pinum.toNat text = some (i, j) →
        (v.node pinum.toNat).direct 0 = some ((v.node pinum.toNat).at' i) := by
  have located := lookupFile_sim backed.sim backed.sound bit short (junk.call 0)
  cases found : v.lookup pinum.toNat text with
  | none =>
    rw [found] at located
    have missing := located.of_none
    refine iff_of_true (fun de addr result => ?_) nofun
    rw [missing] at result
    cases result
  | some slot =>
    obtain ⟨i, j⟩ := slot
    rw [found] at located
    obtain ⟨de, addr, result, place, _⟩ := located.of_some
    obtain ⟨dir, scanned, small, _⟩ := lookup_found found
    have start := (backed.sound.node _ bit).scanned dir (i := 0) (by omega)
    have block : addr / 4096 = (inodeOf s pinum).ptr 0 ↔
        (v.node pinum.toNat).at' i = (v.node pinum.toNat).at' 0 := by
      rw [← UInt32.toNat_inj, inodeOf_ptr backed.sim pinum (backed.sound.inodeBit_lt _ bit) start,
        UInt32.toNat_div, place]
      simp only [UInt32.reduceToNat]
      omega
    constructor
    · intro first i' j' same
      cases same
      rw [start, block.mp (first de addr result)]
    · intro first de' addr' result'
      cases result.symm.trans result'
      have same := first i j rfl
      rw [start] at same
      exact block.mpr (Option.some.inj same).symm

/-- In a session whose unlinks stay in the first block of their directory every
data block has one owner. -/
theorem blocks_have_one_owner (started : Started g s) {events : List Event}
    (all : Allowed step (fun s event => OneRun s event ∧ FirstBlock s event) s events) :
    BlocksOwned (run step s events) := by
  suffices state : ∃ v, Backed g (run step s events) v ∧ Synced v ∧ AllSingle v by
    obtain ⟨v, backed, _, single⟩ := state
    exact blocksOwned backed single
  apply invariant (fun s => ∃ v, Backed g s v ∧ Synced v ∧ AllSingle v) _ _ all
  · obtain ⟨v, backed, initial⟩ := Started.backed started
    exact ⟨v, backed, Initial.synced initial, Initial.single initial⟩
  · rintro s event ⟨v, backed, synced, single⟩ ⟨proper, first⟩
    cases event with
    | restart junk => exact absurd proper id
    | request request junk =>
      have admissible := Proper.admissible proper backed.sim backed.sound
      obtain ⟨chance, _, backed', _, respects⟩ := backed.serve proper (fun _ => synced) junk
      refine ⟨_, backed', respects.synced synced,
        serve_single backed.sound backed.tidy synced admissible chance ?_ single⟩
      intro pinum text i j unlink found
      subst unlink
      exact (firstBlock_iff backed admissible.allocated admissible.short).mp first _ _ found

/-- A root directory of one block has nothing outside it. -/
theorem Rooted.firstBlock {size highest : Nat} {slots : List (Nat × List UInt8 × UInt32)}
    {name : List UInt8} (rooted : Rooted g s size highest slots v) (named : FileName name)
    (junk : Junk) : FirstBlock s (.request (.unlink 0 name) junk) := by
  have bit : v.inodeBit (0 : UInt32).toNat = true := rooted.bit 0 (Nat.zero_le _)
  rw [firstBlock_iff rooted.backed bit (le_trans named.short (by decide))]
  intro i j found
  obtain ⟨dir, scanned, _, _⟩ := lookup_found found
  have mapped := (rooted.backed.sound.node _ bit).scanned dir scanned
  have front : i = 0 := by
    by_contra other
    rw [UInt32.toNat_zero, rooted.root] at mapped
    simp [other] at mapped
  subst front
  exact mapped

/-- A file made and unlinked again. -/
theorem made_and_unlinked_blocks_have_one_owner : ∃ s,
    Allowed step (fun s event => OneRun s event ∧ FirstBlock s event) s
        [.request (.creat 0 ufsRegularFile [97]) noJunk, .request (.unlink 0 [97]) noJunk] ∧
      BlocksOwned (run step s
        [.request (.creat 0 ufsRegularFile [97]) noJunk, .request (.unlink 0 [97]) noJunk]) := by
  obtain ⟨s, started⟩ := started_exists smallest
  obtain ⟨v, rooted⟩ := Started.rooted started
  have named : FileName [97] := ⟨by decide, by decide, by decide⟩
  obtain ⟨_, v', rooted'⟩ := rooted.creat named (by simp [dot, dotDot]) (by decide) (by decide)
    noJunk
  have all : Allowed step (fun s event => OneRun s event ∧ FirstBlock s event) s
      [.request (.creat 0 ufsRegularFile [97]) noJunk, .request (.unlink 0 [97]) noJunk] :=
    ⟨⟨rooted.proper_creat _ named, trivial⟩,
      ⟨rooted'.proper_unlink named, Rooted.firstBlock rooted' named noJunk⟩, trivial⟩
  exact ⟨s, all, blocks_have_one_owner started all⟩

section Sharing

def roomy : Geometry := ⟨256, 32, by decide, smallest.enough_data, by decide⟩

def numbered (i : Nat) : List UInt8 := [UInt8.ofNat (128 + i)]

def creatNumbered (i : Nat) : Event := .request (.creat 0 ufsRegularFile (numbered i)) noJunk

def filled : Nat → List (Nat × List UInt8 × UInt32)
  | 0 => [(0, dot, 0), (1, dotDot, 0)]
  | n + 1 => (n + 2, numbered n, UInt32.ofNat (n + 1)) :: filled n

theorem numbered_fileName {i : Nat} (small : i < 128) : FileName (numbered i) := by
  refine ⟨by simp [numbered], by simp [numbered], ?_⟩
  simp only [numbered, mem_singleton]
  intro zero
  have := congrArg UInt8.toNat zero
  simp only [UInt8.toNat_zero, UInt8.toNat_ofNat'] at this
  omega

theorem numbered_injective {i j : Nat} (small : i < 128) (small' : j < 128)
    (same : numbered i = numbered j) : i = j := by
  have := congrArg UInt8.toNat (singleton_inj.mp same)
  simp only [UInt8.toNat_ofNat'] at this
  omega

theorem numbered_ne_dots {i : Nat} (small : i < 128) : numbered i ≠ dot ∧ numbered i ≠ dotDot := by
  constructor
  · intro same
    have := congrArg UInt8.toNat (singleton_inj.mp same)
    simp only [UInt8.toNat_ofNat', UInt8.reduceToNat] at this
    omega
  · simp [numbered, dotDot]

theorem mem_filled {n k : Nat} {name : List UInt8} {inum : UInt32}
    (listed : (k, name, inum) ∈ filled n) :
    name = dot ∨ name = dotDot ∨ ∃ i < n, k = i + 2 ∧ name = numbered i := by
  induction n with
  | zero =>
    simp only [filled, mem_cons, Prod.mk.injEq, not_mem_nil, or_false] at listed
    rcases listed with ⟨_, same, _⟩ | ⟨_, same, _⟩
    · exact Or.inl same
    · exact Or.inr (Or.inl same)
  | succ n ih =>
    simp only [filled, mem_cons, Prod.mk.injEq] at listed
    rcases listed with ⟨place, same, _⟩ | old
    · exact Or.inr (Or.inr ⟨n, Nat.lt_succ_self n, place, same⟩)
    · rcases ih old with first | second | ⟨i, before, place, same⟩
      · exact Or.inl first
      · exact Or.inr (Or.inl second)
      · exact Or.inr (Or.inr ⟨i, by omega, place, same⟩)

theorem filled_place {n : Nat} : ∀ slot ∈ filled n, slot.1 < n + 2 := by
  induction n with
  | zero => simp [filled]
  | succ n ih =>
    intro slot listed
    rcases mem_cons.mp listed with rfl | old
    · simp
    · exact lt_trans (ih slot old) (by omega)

theorem numbered_missing {n : Nat} (small : n < 128) (k : Nat) (inum : UInt32) :
    (k, numbered n, inum) ∉ filled n := by
  intro listed
  rcases mem_filled listed with first | second | ⟨i, before, _, same⟩
  · exact (numbered_ne_dots small).1 first
  · exact (numbered_ne_dots small).2 second
  · have := numbered_injective small (by omega) same
    omega

/-- Up to 126 files fit in the first block of the root directory. -/
theorem fill_rooted (n : Nat) (small : n ≤ 126) (start : Started roomy s) :
    Allowed step OneRun s ((range n).map creatNumbered) ∧
      ∃ v, Rooted roomy (run step s ((range n).map creatNumbered)) (64 + 32 * n) n (filled n)
        v := by
  induction n with
  | zero => exact ⟨trivial, Started.rooted start⟩
  | succ n ih =>
    obtain ⟨allowed, v, rooted⟩ := ih (by omega)
    have named := numbered_fileName (show n < 128 by omega)
    obtain ⟨_, v', rooted'⟩ := rooted.creat named (numbered_missing (by omega))
      (by simp only [roomy]; omega) (by omega) noJunk
    have slot : (64 + 32 * n) / 32 = n + 2 := by omega
    have kept : (filled n).filter (fun slot => slot.1 ≠ n + 2) = filled n := by
      rw [filter_eq_self]
      intro slot listed
      have := filled_place slot listed
      simp only [ne_eq, decide_not, Bool.not_eq_eq_eq_not, Bool.not_true, decide_eq_false_iff_not]
      omega
    rw [slot, kept] at rooted'
    rw [range_succ, map_append, allowed_append, run_append]
    exact ⟨⟨allowed, rooted.proper_creat _ named, trivial⟩, v', rooted'⟩

theorem second_block (rooted : Rooted roomy s 4096 126 (filled 126) v) :
    ∃ v' b, Backed roomy (serve s (.creat 0 ufsRegularFile (numbered 126)) noJunk) v' ∧
      v'.inodeBit 0 = true ∧ (v'.node 0).direct 1 = some b ∧
      v'.lookup 0 (numbered 126) = some (1, 0) ∧
      v'.lookupInum 0 (numbered 126) = some 127 ∧ v'.inodeBit 127 = true ∧
      v'.node 127 = Node.fresh ufsRegularFile := by
  have named := numbered_fileName (show 126 < 128 by decide)
  have missing := numbered_missing (show 126 < 128 by decide)
  have bit := rooted.bit 0 (Nat.zero_le _)
  have proper := rooted.proper_creat ufsRegularFile named
  have absent := rooted.absent named missing
  have root := rooted.root
  have carries := rooted.carries
  obtain ⟨⟨backed, synced, single, _, _, _, highestInode, counter⟩, _⟩ := rooted
  obtain ⟨chance, _, backed', _, _⟩ := backed.serve proper (fun _ => synced) noJunk
  have size : (v.node 0).size = 4096 := by rw [root]
  obtain ⟨v', b, result, created⟩ := @creat_created roomy v 0 (numbered 126) ufsRegularFile
    backed.sound backed.tidy synced single bit (by rw [root]) named absent
    (by rw [highestInode]; decide) (by rw [counter]; decide) (by rw [size]; decide)
    (Or.inr (by rw [counter]; decide)) chance
  have served : (v.serve roomy (.creat 0 ufsRegularFile (numbered 126)) chance).2 = v' := by
    simp only [Vol.serve, UInt32.toNat_zero, result]
  have node := created.node
  rw [served] at backed'
  rw [size, show 4096 / 4096 = 1 from rfl] at node
  have new : ∀ k inum, Carries v' 0 k (numbered 126) inum ↔ k = 128 ∧ inum = 127 := by
    intro k inum
    rw [created.carries k _ inum named, size, highestInode, carries k _ inum named]
    constructor
    · rintro (⟨place, _, number⟩ | ⟨_, listed⟩)
      · exact ⟨place, number⟩
      · exact absurd listed (missing k inum)
    · rintro ⟨rfl, rfl⟩
      exact Or.inl ⟨rfl, rfl, rfl⟩
  have dir : (v'.node 0).type = ufsDirectory := by
    rw [node]
    simp [root]
  have here : Carries v' 0 128 (numbered 126) 127 := (new 128 127).mpr ⟨rfl, rfl⟩
  have bit' : v'.inodeBit 0 = true := (created.inodeBit 0).mpr (Or.inl bit)
  have inside : 128 < 128 * (v'.node 0).blocksUsed := by
    rw [node]
    simp only [Node.blocksUsed]
    omega
  have once : ∀ k inum, Carries v' 0 k (numbered 126) inum → k = 128 :=
    fun k inum found => ((new k inum).mp found).1
  refine ⟨v', b, backed', bit', ?_, lookup_of_carries backed'.sound bit' dir here inside once,
    lookupInum_of_carries backed'.sound bit' dir named.plain here inside once, ?_, ?_⟩
  · rw [node, Node.setPtr_same]
  · exact (created.inodeBit 127).mpr (Or.inr (by rw [highestInode]))
  · have file := created.file (by decide)
    rw [highestInode] at file
    exact file

def sharingRun : List Event :=
  (range 127).map creatNumbered ++ [.request (.unlink 0 (numbered 126)) noJunk]

/-- Afterwards `direct[0]` and `direct[1]` of the root directory are one block. -/
theorem unlink_in_the_second_block_shares_it : ∃ s, Started roomy s ∧
    Allowed step OneRun s sharingRun ∧ ¬ BlocksOwned (run step s sharingRun) := by
  obtain ⟨s, started⟩ := started_exists roomy
  -- with the two dots 126 names fill the first block, and one more needs a second
  obtain ⟨allowed, v, rooted⟩ := fill_rooted 126 (by decide) started
  have named := numbered_fileName (show 126 < 128 by decide)
  obtain ⟨v', b, backed, bit, second, found, answer, bit', file⟩ := second_block rooted
  have allocated : Allocated (serve (run step s ((range 126).map creatNumbered))
      (.creat 0 ufsRegularFile (numbered 126)) noJunk) 0 :=
    (allocated_iff backed.sim backed.sound 0).mpr bit
  have proper : Proper (serve (run step s ((range 126).map creatNumbered))
      (.creat 0 ufsRegularFile (numbered 126)) noJunk) (.unlink 0 (numbered 126)) :=
    ⟨allocated, Nat.zero_le _, le_trans named.short (by decide)⟩
  obtain ⟨chance, _, backed', decides, respects⟩ := backed.serve proper (fun alloc => absurd alloc id)
    noJunk
  have allow : chance.refuse = false := by
    rw [decides 0 _ 127 rfl answer bit', show (127 : UInt32).toNat = 127 from rfl, file]
    rfl
  have served : (v'.serve roomy (.unlink 0 (numbered 126)) chance).2 =
      v'.removeEntry 0 ((v'.node 0).at' 1) 0 := by
    simp [Vol.serve, Vol.unlinkFile, found, allow]
  rw [served] at backed'
  have place : (v'.node 0).at' 1 = b := by simp [Node.at', second]
  -- the assignment in the loop condition puts that block in front as well
  have first : ((v'.removeEntry 0 ((v'.node 0).at' 1) 0).node (0 : UInt32).toNat).direct 0 =
      some b := by
    simp [Vol.removeEntry, Vol.setNode, place]
  have still : ((v'.removeEntry 0 ((v'.node 0).at' 1) 0).node (0 : UInt32).toNat).direct 1 =
      some b := by
    simp [Vol.removeEntry, Vol.setNode, Node.setPtr, second]
  have events : sharingRun = (range 126).map creatNumbered ++
      [creatNumbered 126, .request (.unlink 0 (numbered 126)) noJunk] := by
    rw [sharingRun, range_succ, map_append, append_assoc]
    rfl
  refine ⟨s, started, ?_, ?_⟩
  · rw [events, allowed_append]
    exact ⟨allowed, rooted.proper_creat _ named, proper, trivial⟩
  · rw [events, run_append, run_cons, run_cons, run_nil]
    exact not_blocksOwned backed' 0 bit (by decide) (by decide) (by decide) first still
end Sharing

end OsProjects.SharedBlocks
