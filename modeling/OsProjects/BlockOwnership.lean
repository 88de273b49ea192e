import OsProjects.ServerRuns

/-!
Who owns a data block. In a tidy volume no block belongs to two inodes and the
blocks whose bit is clear hold zeros. An operation on one inode gives it blocks
it had before or blocks just allocated, and writes to no others, so tidiness is
kept whenever the allocator hands out blocks and inodes whose bits are clear;
within one session it always does.
-/

namespace OsProjects.BlockOwnership

open ByteStore UfsLayout FileServer Volume VolumeSteps VolumeSound VolumeRefinement MkfsImage Runs
  ServerRuns Function

variable {g : Geometry} {v v' : Vol} {n : Nat}

structure Tidy (g : Geometry) (v : Vol) : Prop where
  apart : ∀ m n, m ≠ n → v.inodeBit m = true → v.inodeBit n = true →
    ∀ i j b, (v.node m).direct i = some b → (v.node n).direct j ≠ some b
  zero : ∀ k, k < g.numData → v.dataBit k = false → ∀ index, index < 4096 →
    v.block (g.dataRegionAddr + k) index = 0
  dataBit_lt : ∀ k, v.dataBit k = true → k < g.numData

structure Synced (v : Vol) : Prop where
  inodes : ∀ n, v.inodeBit n = true → n ≤ v.highestInode
  blocks : ∀ k, v.dataBit k = true → k ≤ v.hghstAllocDblk

theorem Synced.block_zero {g : Geometry} {v : Vol} (synced : Synced v) (tidy : Tidy g v) {k : Nat}
    (above : v.hghstAllocDblk < k) (inside : k < g.numData) {index : Nat} (below : index < 4096) :
    v.block (g.dataRegionAddr + k) index = 0 := by
  refine tidy.zero k inside ?_ index below
  cases set : v.dataBit k with
  | false => rfl
  | true => exact absurd (synced.blocks k set) (Nat.not_le_of_gt above)

structure Touches (g : Geometry) (n : Nat) (v v' : Vol) : Prop extends Advances g v v' where
  inodeBit : v'.inodeBit = v.inodeBit
  highestInode : v'.highestInode = v.highestInode
  others : ∀ m, m ≠ n → v'.node m = v.node m
  type : (v'.node n).type = (v.node n).type
  pointer : ∀ i b, (v'.node n).direct i = some b →
    (∃ j, (v.node n).direct j = some b) ∨
      ∃ k, v.hghstAllocDblk < k ∧ k ≤ v'.hghstAllocDblk ∧ b = g.dataRegionAddr + k
  block : ∀ b, (∀ i, (v'.node n).direct i ≠ some b) → v'.block b = v.block b

theorem Writes.touches (writes : Writes g n v v') : Touches g n v v' := by
  refine ⟨writes.toAdvances, writes.inodeBit, writes.highestInode, writes.others,
    writes.fills.type, ?_, writes.block⟩
  intro i b here
  rcases writes.fills.pointer i with same | ⟨_, k, low, high, new⟩
  · exact Or.inl ⟨i, same ▸ here⟩
  · exact Or.inr ⟨k, low, high, Option.some.inj (here.symm.trans new)⟩

/-- No block of another inode is among those of inode `n` afterwards: it is an
old one of `n`, or it was free. -/
theorem Touches.owned (touches : Touches g n v v') (sound : Sound g v) (tidy : Tidy g v)
    (bit : v.inodeBit n = true)
    (fresh : v'.hghstAllocDblk ≠ v.hghstAllocDblk → ∀ k, v.dataBit k = true → k ≤ v.hghstAllocDblk)
    {m i j b : Nat} (other : m ≠ n) (bitM : v.inodeBit m = true)
    (here : (v'.node n).direct i = some b) : (v.node m).direct j ≠ some b := by
  intro there
  rcases touches.pointer i b here with ⟨slot, old⟩ | ⟨k, low, high, new⟩
  · exact tidy.apart n m (Ne.symm other) bit bitM slot j b old there
  · obtain ⟨_, k', _, used, place⟩ := (sound.node m bitM).pointer j b there
    have := fresh (by omega) k' used
    omega

theorem Touches.tidy (touches : Touches g n v v') (sound : Sound g v) (tidy : Tidy g v)
    (bit : v.inodeBit n = true)
    (fresh : v'.hghstAllocDblk ≠ v.hghstAllocDblk →
      ∀ k, v.dataBit k = true → k ≤ v.hghstAllocDblk) : Tidy g v' := by
  constructor
  · intro m m' different bitM bitM' i j b here there
    rw [touches.inodeBit] at bitM bitM'
    by_cases first : m = n
    · subst first
      rw [touches.others m' (Ne.symm different)] at there
      exact touches.owned sound tidy bit fresh (Ne.symm different) bitM' here there
    · rw [touches.others m first] at here
      by_cases second : m' = n
      · subst second
        exact touches.owned sound tidy bit fresh first bitM there here
      · rw [touches.others m' second] at there
        exact tidy.apart m m' different bitM bitM' i j b here there
  · intro k inside clear index small
    have old : v.dataBit k = false := by
      by_contra set
      simp only [Bool.not_eq_false] at set
      rw [touches.dataBit, set] at clear
      simp at clear
    rw [touches.block, tidy.zero k inside old index small]
    -- the block is free afterwards, so inode n cannot have it
    intro i here
    rcases touches.pointer i _ here with ⟨j, owner⟩ | ⟨k', low, high, place⟩
    · obtain ⟨_, k', _, used, place⟩ := (sound.node n bit).pointer j _ owner
      have same : k = k' := by omega
      rw [same, used] at old
      cases old
    · have same : k = k' := by omega
      rw [touches.dataBit, same] at clear
      simp [low, high] at clear
  · intro k set
    rw [touches.dataBit] at set
    cases old : v.dataBit k with
    | true => exact tidy.dataBit_lt k old
    | false =>
      simp only [old, Bool.false_or, decide_eq_true_eq] at set
      exact lt_of_le_of_lt set.2 touches.counter_lt

theorem Touches.synced (touches : Touches g n v v') (synced : Synced v) : Synced v' := by
  refine ⟨?_, ?_⟩
  · rw [touches.inodeBit, touches.highestInode]
    exact synced.inodes
  · intro k set
    rw [touches.dataBit] at set
    have below := touches.counter_le
    cases old : v.dataBit k with
    | true =>
      have := synced.blocks k old
      omega
    | false =>
      simp only [old, Bool.false_or, decide_eq_true_eq] at set
      exact set.2

theorem removeEntry_touches (sound : Sound g v) {p i j : Nat} (allocated : v.inodeBit p = true)
    {name : List UInt8} (found : v.lookup p name = some (i, j)) :
    Touches g p v (v.removeEntry p ((v.node p).at' i) j) := by
  obtain ⟨dir, inside, _, _⟩ := lookup_found found
  have mapped := (sound.node p allocated).scanned dir inside
  have unmoved := Advances.refl sound.hghstAllocDblk_lt
  refine { unmoved with
    inodeBit := rfl, highestInode := rfl, others := ?_, type := ?_, pointer := ?_, block := ?_ }
  · intro m other
    simp [Vol.removeEntry, Vol.setNode, Vol.putBlock, other]
  · simp [Vol.removeEntry, Vol.setNode]
  · intro slot b here
    simp only [Vol.removeEntry, Vol.setNode, update_self] at here
    by_cases first : slot = 0
    · subst first
      rw [Node.setPtr_same] at here
      exact Or.inl ⟨i, mapped.trans here⟩
    · rw [Node.setPtr_other first] at here
      exact Or.inl ⟨slot, here⟩
  · intro b foreign
    have apart : b ≠ (v.node p).at' i := by
      rintro rfl
      apply foreign 0
      simp [Vol.removeEntry, Vol.setNode]
    simp [Vol.removeEntry, Vol.setNode, Vol.putBlock, apart]

theorem makeDir_touches (sound : Sound g v) (n p : Nat) (junk : Bytes) :
    Touches g n v (v.makeDir g n p junk).2 := by
  rcases makeDir_cases sound n p junk with ⟨_, full⟩ | ⟨v1, alloc, next, made⟩
  · rw [full]
    exact Writes.touches ((Allocates.refl sound.hghstAllocDblk_lt).writes n)
  · rw [made]
    refine { alloc.toAdvances with
      inodeBit := alloc.inodeBit, highestInode := alloc.highestInode, others := ?_, type := ?_
      pointer := ?_, block := ?_ }
    · intro m other
      simp [Vol.setNode, Vol.putBlock, other, alloc.node]
    · simp [Vol.setNode]
    · intro i b here
      simp only [Vol.setNode, update_self] at here
      by_cases first : i = 0
      · subst first
        rw [Node.setPtr_same, Option.some.injEq] at here
        exact Or.inr ⟨v1.hghstAllocDblk, by omega, le_refl _, here.symm⟩
      · rw [Node.setPtr_other first] at here
        exact Or.inl ⟨i, here⟩
    · intro b foreign
      have apart : b ≠ g.dataRegionAddr + v1.hghstAllocDblk := by
        rintro rfl
        apply foreign 0
        simp [Vol.setNode]
      simp [Vol.setNode, Vol.putBlock, apart, alloc.block]

theorem newInode_tidy (sound : Sound g v) (tidy : Tidy g v)
    (room : v.highestInode + 1 < g.numInodes) (type : UInt32) : Tidy g (v.newInode g type).2 := by
  rw [newInode_taken sound room type]
  refine ⟨?_, tidy.zero, tidy.dataBit_lt⟩
  intro m m' different bit bit' i j b here there
  by_cases new : m = v.highestInode + 1
  · subst new
    simp [Node.fresh] at here
  · by_cases new' : m' = v.highestInode + 1
    · subst new'
      simp [Node.fresh] at there
    · simp only [update_of_ne new] at bit here
      simp only [update_of_ne new'] at bit' there
      exact tidy.apart m m' different bit bit' i j b here there

theorem newInode_synced (sound : Sound g v) (synced : Synced v)
    (room : v.highestInode + 1 < g.numInodes) (type : UInt32) : Synced (v.newInode g type).2 := by
  rw [newInode_taken sound room type]
  refine ⟨?_, synced.blocks⟩
  intro m bit
  by_cases new : m = v.highestInode + 1
  · exact new ▸ le_refl _
  · simp only [update_of_ne new] at bit
    exact le_trans (synced.inodes m bit) (Nat.le_succ _)

structure Apart (m : Nat) (v v' : Vol) : Prop where
  node : v'.node m = v.node m
  block : ∀ i b, (v.node m).direct i = some b → v'.block b = v.block b

theorem Apart.refl (m : Nat) (v : Vol) : Apart m v v := ⟨rfl, fun _ _ _ => rfl⟩

theorem Apart.trans {m : Nat} {v'' : Vol} (first : Apart m v v') (second : Apart m v' v'') :
    Apart m v v'' := by
  refine ⟨second.node.trans first.node, fun i b here => ?_⟩
  rw [second.block i b (first.node ▸ here), first.block i b here]

structure Respects (g : Geometry) (changed : Nat → Prop) (v v' : Vol) : Prop where
  sound : Sound g v'
  tidy : Tidy g v'
  synced : Synced v → Synced v'
  inodeBit : ∀ m, v.inodeBit m = true → v'.inodeBit m = true
  type : Synced v → ∀ m, v.inodeBit m = true → (v'.node m).type = (v.node m).type
  apart : ∀ m, ¬ changed m → v.inodeBit m = true → Apart m v v'

namespace Respects
variable {changed : Nat → Prop}

theorem refl (sound : Sound g v) (tidy : Tidy g v) : Respects g changed v v :=
  ⟨sound, tidy, fun synced => synced, fun _ bit => bit, fun _ _ _ => rfl,
    fun m _ _ => Apart.refl m v⟩

theorem trans {v'' : Vol} (first : Respects g changed v v') (second : Respects g changed v' v'') :
    Respects g changed v v'' := by
  refine ⟨second.sound, second.tidy, fun synced => second.synced (first.synced synced),
    fun m bit => second.inodeBit m (first.inodeBit m bit), fun synced m bit => ?_,
    fun m kept bit => ?_⟩
  · rw [second.type (first.synced synced) m (first.inodeBit m bit), first.type synced m bit]
  · exact (first.apart m kept bit).trans (second.apart m kept (first.inodeBit m bit))
end Respects

theorem Touches.respects (touches : Touches g n v v') (sound : Sound g v) (sound' : Sound g v')
    (tidy : Tidy g v) (bit : v.inodeBit n = true)
    (fresh : v'.hghstAllocDblk ≠ v.hghstAllocDblk → ∀ k, v.dataBit k = true → k ≤ v.hghstAllocDblk)
    {changed : Nat → Prop} (named : changed n) : Respects g changed v v' := by
  refine {
    sound := sound', tidy := touches.tidy sound tidy bit fresh, synced := touches.synced
    inodeBit := ?_, type := ?_, apart := ?_ }
  · intro m bitM
    rw [touches.inodeBit]
    exact bitM
  · intro _ m _
    by_cases same : m = n
    · rw [same, touches.type]
    · rw [touches.others m same]
  · intro m kept bitM
    have other : m ≠ n := by
      rintro rfl
      exact kept named
    refine ⟨touches.others m other, fun j b there => touches.block b fun i here => ?_⟩
    exact touches.owned sound tidy bit fresh other bitM here there

theorem newInode_respects (sound : Sound g v) (tidy : Tidy g v)
    (room : v.highestInode + 1 < g.numInodes) (type : UInt32) {changed : Nat → Prop}
    (named : changed (v.highestInode + 1)) : Respects g changed v (v.newInode g type).2 := by
  have sound' := newInode_sound sound room type
  have tidy' := newInode_tidy sound tidy room type
  refine {
    sound := sound', tidy := tidy', synced := fun synced => newInode_synced sound synced room type
    inodeBit := ?_, type := ?_, apart := ?_ }
  · intro m bit
    have taken := newInode_taken sound room type
    by_cases new : m = v.highestInode + 1
    · simp [taken, new]
    · simp [taken, new, bit]
  · intro synced m bit
    have new : m ≠ v.highestInode + 1 := by
      have := synced.inodes m bit
      omega
    have taken := newInode_taken sound room type
    simp [taken, new]
  · intro m kept bit
    have new : m ≠ v.highestInode + 1 := by
      rintro rfl
      exact kept named
    rw [newInode_taken sound room type]
    exact ⟨by simp [new], fun _ _ _ => rfl⟩

theorem makeDir_respects (sound : Sound g v) (tidy : Tidy g v) (synced : Synced v)
    (bit : v.inodeBit n = true) (p : Nat) (junk : Bytes) {changed : Nat → Prop}
    (named : changed n) : Respects g changed v (v.makeDir g n p junk).2 :=
  (makeDir_touches sound n p junk).respects sound (makeDir_sound sound bit p junk) tidy bit
    (fun _ => synced.blocks) named

theorem addEntry_touches (sound : Sound g v) (bit : v.inodeBit n = true) (ninum : Nat)
    (name : List UInt8) (junk : Bytes) : Touches g n v (v.addEntry g n ninum name junk) :=
  Writes.touches ((writeEntry_outcome (sound.node n bit) sound.hghstAllocDblk_lt _).writes
    (sound.node n bit) sound.hghstAllocDblk_lt)

theorem addEntry_respects (sound : Sound g v) (tidy : Tidy g v) (synced : Synced v)
    (bit : v.inodeBit n = true) (ninum : Nat) (name : List UInt8) (junk : Bytes)
    {changed : Nat → Prop} (named : changed n) :
    Respects g changed v (v.addEntry g n ninum name junk) :=
  (addEntry_touches sound bit ninum name junk).respects sound
    (addEntry_sound sound bit ninum name junk) tidy bit (fun _ => synced.blocks) named

theorem newInode_bit (sound : Sound g v) (room : v.highestInode + 1 < g.numInodes)
    (type : UInt32) : (v.newInode g type).2.inodeBit (v.highestInode + 1) = true := by
  simp [newInode_taken sound room type]

/-- `creat_file` changes the parent; the other inode it writes is one that was
not allocated before. -/
theorem CreatOutcome.respects {p : Nat} {type : UInt32} {name : List UInt8} {chance : Chance}
    {ok : Bool} (outcome : CreatOutcome g v p type name chance ok v') (sound : Sound g v)
    (tidy : Tidy g v) (synced : Synced v) (bit : v.inodeBit p = true) :
    Respects g (fun m => m = p) v v' := by
  suffices both : Respects g (fun m => m = p ∨ m = v.highestInode + 1) v v' by
    refine ⟨both.sound, both.tidy, both.synced, both.inodeBit, both.type, fun m other bitM => ?_⟩
    refine both.apart m ?_ bitM
    rintro (same | new)
    · exact other same
    · have := synced.inodes m bitM
      omega
  cases outcome with
  | notDir | present | noInode => exact Respects.refl sound tidy
  | noBlock dir absent room isDir full =>
    exact newInode_respects sound tidy room type (Or.inr rfl)
  | file dir absent room isFile =>
    have taken : Respects g (fun m => m = p ∨ m = v.highestInode + 1) v (v.newInode g type).2 :=
      newInode_respects sound tidy room type (Or.inr rfl)
    exact taken.trans (addEntry_respects taken.sound taken.tidy (taken.synced synced)
      (taken.inodeBit p bit) _ name chance.entry (Or.inl rfl))
  | dir dir absent room isDir block =>
    have taken : Respects g (fun m => m = p ∨ m = v.highestInode + 1) v (v.newInode g type).2 :=
      newInode_respects sound tidy room type (Or.inr rfl)
    have made := taken.trans (makeDir_respects taken.sound taken.tidy (taken.synced synced)
      (newInode_bit sound room type) p chance.dir (Or.inr rfl))
    exact made.trans (addEntry_respects made.sound made.tidy (made.synced synced)
      (made.inodeBit p bit) _ name chance.entry (Or.inl rfl))

theorem unlinkFile_respects (sound : Sound g v) (tidy : Tidy g v) {p : Nat}
    (bit : v.inodeBit p = true) (name : List UInt8) (refuse : Bool) :
    Respects g (fun m => m = p) v (v.unlinkFile p name refuse).2 := by
  unfold Vol.unlinkFile
  cases found : v.lookup p name with
  | none => exact Respects.refl sound tidy
  | some slot =>
    cases refuse with
    | true => exact Respects.refl sound tidy
    | false =>
      exact (removeEntry_touches sound bit found).respects sound
        (removeEntry_sound sound bit found) tidy bit (fun moved => absurd rfl moved) rfl

theorem writeFile_respects (sound : Sound g v) (tidy : Tidy g v) (synced : Synced v)
    (bit : v.inodeBit n = true) (buf : Bytes) (offset nbytes : Nat) (small : nbytes ≤ 4096) :
    Respects g (fun m => m = n) v (v.writeFile g n buf offset nbytes ufsRegularFile).2 := by
  have outcome := writeFile_outcome n buf offset nbytes ufsRegularFile sound.hghstAllocDblk_lt
  have writes := outcome.writes sound.hghstAllocDblk_lt small
  exact (Writes.touches writes).respects sound (writeFile_sound sound bit buf _ _ small) tidy bit
    (fun _ => synced.blocks) rfl

def Allocating : Request → Prop
  | .write _ _ _ _ => True
  | .creat _ _ _ => True
  | _ => False

theorem serve_respects (sound : Sound g v) (tidy : Tidy g v) {request : Request}
    (current : Allocating request → Synced v) (admissible : Admissible v request)
    (chance : Chance) :
    Respects g (fun m => m = (inode request).toNat) v (v.serve g request chance).2 := by
  obtain ⟨bit, small, _⟩ := admissible
  cases request with
  | lookup | stat | read => exact Respects.refl sound tidy
  | write inum buf offset nbytes =>
    exact writeFile_respects sound tidy (current trivial) bit buf _ _ small
  | creat pinum type name =>
    exact CreatOutcome.respects (creatFile_outcome sound _ type name chance) sound tidy
      (current trivial) bit
  | unlink pinum name => exact unlinkFile_respects sound tidy bit name chance.refuse

section SingleUse

def Single (nd : Node) : Prop := ∀ i j b, nd.direct i = some b → nd.direct j = some b → i = j

def AllSingle (v : Vol) : Prop := ∀ n, v.inodeBit n = true → Single (v.node n)

theorem Writes.single_node (writes : Writes g n v v') (sound : Sound g v) (synced : Synced v)
    (bit : v.inodeBit n = true) (single : Single (v.node n)) : Single (v'.node n) := by
  have low : ∀ i k, (v.node n).direct i = some (g.dataRegionAddr + k) → k ≤ v.hghstAllocDblk := by
    intro i k here
    obtain ⟨_, k', _, used, place⟩ := (sound.node n bit).pointer i _ here
    have := synced.blocks k' used
    omega
  intro i j b here there
  rcases writes.fills.pointer i with old | ⟨_, k, above, _, new⟩
  · rcases writes.fills.pointer j with old' | ⟨_, k, above, _, new⟩
    · exact single i j b (old ▸ here) (old' ▸ there)
    · have := low i k (by rw [← old, here, ← there, new])
      omega
  · exact writes.fills.once low i j k new (by rw [there, ← here, new]) above

theorem Writes.single (writes : Writes g n v v') (sound : Sound g v) (synced : Synced v)
    (bit : v.inodeBit n = true) (single : AllSingle v) : AllSingle v' := by
  intro m bitM
  rw [writes.inodeBit] at bitM
  by_cases same : m = n
  · subst same
    exact Writes.single_node writes sound synced bit (single m bit)
  · rw [writes.others m same]
    exact single m bitM

theorem newInode_single (sound : Sound g v) (room : v.highestInode + 1 < g.numInodes)
    (type : UInt32) (single : AllSingle v) : AllSingle (v.newInode g type).2 := by
  rw [newInode_taken sound room type]
  intro m bit
  by_cases new : m = v.highestInode + 1
  · intro i j b here
    simp [new, Node.fresh] at here
  · simp only [update_of_ne new] at bit ⊢
    exact single m bit

theorem makeDir_single (sound : Sound g v) (empty : ∀ i, (v.node n).direct i = none) (p : Nat)
    (junk : Bytes) (single : AllSingle v) : AllSingle (v.makeDir g n p junk).2 := by
  rcases makeDir_cases sound n p junk with ⟨_, full⟩ | ⟨v1, alloc, next, made⟩
  · rw [full]
    exact single
  · rw [made]
    intro m bit
    by_cases same : m = n
    · have only : ∀ i b, ((v.node n).setPtr 0 (g.dataRegionAddr + v1.hghstAllocDblk)).direct i =
          some b → i = 0 := by
        intro i b here
        by_contra other
        rw [Node.setPtr_other other, empty i] at here
        cases here
      intro i j b here there
      simp only [Vol.setNode, same, update_self] at here there
      rw [only i b here, only j b there]
    · simp only [Vol.setNode, Vol.putBlock, update_of_ne same, alloc.node, alloc.inodeBit] at bit ⊢
      exact single m bit

theorem addEntry_single (sound : Sound g v) (synced : Synced v) (bit : v.inodeBit n = true)
    (ninum : Nat) (name : List UInt8) (junk : Bytes) (single : AllSingle v) :
    AllSingle (v.addEntry g n ninum name junk) :=
  Writes.single ((writeEntry_outcome (sound.node n bit) sound.hghstAllocDblk_lt _).writes
    (sound.node n bit) sound.hghstAllocDblk_lt) sound synced bit single

theorem newInode_fresh (sound : Sound g v) (room : v.highestInode + 1 < g.numInodes)
    (type : UInt32) : (v.newInode g type).2.node (v.highestInode + 1) = Node.fresh type := by
  simp [newInode_taken sound room type]

theorem CreatOutcome.single {p : Nat} {type : UInt32} {name : List UInt8} {chance : Chance}
    {ok : Bool} (outcome : CreatOutcome g v p type name chance ok v') (sound : Sound g v)
    (tidy : Tidy g v) (synced : Synced v) (bit : v.inodeBit p = true) (single : AllSingle v) :
    AllSingle v' := by
  have taken := fun room => @newInode_respects g v sound tidy room type (fun _ => True) trivial
  cases outcome with
  | notDir | present | noInode => exact single
  | noBlock dir absent room isDir full => exact newInode_single sound room type single
  | file dir absent room isFile =>
    exact addEntry_single (taken room).sound ((taken room).synced synced)
      ((taken room).inodeBit p bit) _ name chance.entry (newInode_single sound room type single)
  | dir dir absent room isDir block =>
    have made := (taken room).trans (makeDir_respects (taken room).sound (taken room).tidy
      ((taken room).synced synced) (newInode_bit sound room type) p chance.dir trivial)
    apply addEntry_single made.sound (made.synced synced) (made.inodeBit p bit)
    apply makeDir_single (taken room).sound _ p chance.dir (newInode_single sound room type single)
    intro i
    rw [newInode_fresh sound room type]
    rfl

/-- An unlink in the first block of the directory leaves the pointers alone. -/
theorem removeEntry_single {p i : Nat} (j : Nat) (bit : v.inodeBit p = true)
    (first : (v.node p).direct 0 = some ((v.node p).at' i)) (single : AllSingle v) :
    AllSingle (v.removeEntry p ((v.node p).at' i) j) := by
  intro m bitM
  by_cases same : m = p
  · subst same
    have kept : ((v.node m).setPtr 0 ((v.node m).at' i)).direct = (v.node m).direct := by
      simp [Node.setPtr, ← first]
    simpa [Vol.removeEntry, Vol.setNode, Single, kept] using single m bit
  · simpa [Vol.removeEntry, Vol.setNode, Vol.putBlock, same] using single m bitM

/-- Every request but an unlink outside the first block keeps pointers distinct. -/
theorem serve_single (sound : Sound g v) (tidy : Tidy g v) (synced : Synced v)
    {request : Request} (admissible : Admissible v request) (chance : Chance)
    (first : ∀ pinum text i j, request = .unlink pinum text →
      v.lookup pinum.toNat text = some (i, j) →
      (v.node pinum.toNat).direct 0 = some ((v.node pinum.toNat).at' i))
    (single : AllSingle v) : AllSingle (v.serve g request chance).2 := by
  obtain ⟨bit, small, _⟩ := admissible
  cases request with
  | lookup | stat | read => exact single
  | write inum buf offset nbytes =>
    have outcome := writeFile_outcome inum.toNat buf offset.toNat nbytes.toNat ufsRegularFile
      sound.hghstAllocDblk_lt
    exact Writes.single (outcome.writes sound.hghstAllocDblk_lt small) sound synced bit single
  | creat pinum type name =>
    exact CreatOutcome.single (creatFile_outcome sound _ type name chance) sound tidy synced bit
      single
  | unlink pinum name =>
    simp only [Vol.serve, Vol.unlinkFile]
    cases found : v.lookup pinum.toNat name with
    | none => exact single
    | some slot =>
      cases chance.refuse with
      | true => exact single
      | false =>
        exact removeEntry_single _ bit (first _ _ _ _ rfl found) single
end SingleUse

theorem Initial.tidy (initial : Initial g v) : Tidy g v := by
  refine ⟨?_, ?_, ?_⟩
  · intro m n different bit bit'
    simp only [initial.inodeBit, decide_eq_true_eq] at bit bit'
    omega
  · intro k inside clear index small
    simp only [initial.dataBit, decide_eq_false_iff_not] at clear
    have total : g.totalBlocks = g.dataRegionAddr + g.numData := rfl
    exact initial.zero _ (by omega) (by omega) index small
  · intro k set
    have enough := g.enough_data
    simp only [initial.dataBit, decide_eq_true_eq] at set
    omega

theorem Initial.synced (initial : Initial g v) : Synced v := by
  refine ⟨?_, ?_⟩
  · intro n bit
    simp only [initial.inodeBit, decide_eq_true_eq] at bit
    omega
  · intro k bit
    simp only [initial.dataBit, decide_eq_true_eq] at bit
    omega

theorem Initial.single (initial : Initial g v) : AllSingle v := by
  intro n bit i j b here there
  simp only [initial.inodeBit, decide_eq_true_eq] at bit
  rw [bit, initial.root] at here there
  simp only [Option.ite_none_right_eq_some] at here there
  omega

structure Backed (g : Geometry) (s : Serv) (v : Vol) : Prop where
  sim : Sim g s v
  sound : Sound g v
  tidy : Tidy g v

section Serving
variable {s : Serv}

theorem Started.backed (started : Started g s) : ∃ v, Backed g s v ∧ Initial g v := by
  obtain ⟨v, sim, initial⟩ := started.initial
  exact ⟨v, ⟨sim, initial.sound, Initial.tidy initial⟩, initial⟩

theorem Backed.serve (backed : Backed g s v) {request : Request} (proper : Proper s request)
    (current : Allocating request → Synced v) (junk : Junk) :
    ∃ chance, replyCode s request junk = (v.serve g request chance).1 ∧
      Backed g (FileServer.serve s request junk) (v.serve g request chance).2 ∧
      Decides v request chance ∧
      Respects g (fun m => m = (inode request).toNat) v (v.serve g request chance).2 := by
  have admissible := proper.admissible backed.sim backed.sound
  obtain ⟨chance, reply, sim', decides⟩ := serve_sim backed.sim backed.sound admissible junk
  have respects := serve_respects backed.sound backed.tidy current admissible chance
  exact ⟨chance, reply, ⟨sim', respects.sound, respects.tidy⟩, decides, respects⟩

/-- A request in a session keeps the inodes there are, and their types. -/
theorem Backed.keeps (backed : Backed g s v) (synced : Synced v) {request : Request}
    (proper : Proper s request) (junk : Junk) {inum : UInt32} (allocated : Allocated s inum) :
    Allocated (FileServer.serve s request junk) inum ∧
      (inodeOf (FileServer.serve s request junk) inum).type = (inodeOf s inum).type := by
  obtain ⟨chance, _, backed', _, respects⟩ := backed.serve proper (fun _ => synced) junk
  have bit := (allocated_iff backed.sim backed.sound inum).mp allocated
  have inside := backed.sound.inodeBit_lt _ bit
  refine ⟨(allocated_iff backed'.sim backed'.sound inum).mpr (respects.inodeBit _ bit), ?_⟩
  rw [inodeOf_type backed'.sim inum inside, inodeOf_type backed.sim inum inside,
    respects.type synced _ bit]

theorem Backed.restart (backed : Backed g s v) (junk : Junk) :
    Backed g (initializeServ s.image junk) (restarted v) :=
  ⟨restart_sim backed.sim backed.sound junk, restarted_sound backed.sound,
    backed.tidy.apart, backed.tidy.zero, backed.tidy.dataBit_lt⟩

/-- Within one session the counters stay at the last bits. -/
theorem oneRun_backed (started : Started g s) {events : List Event}
    (all : Allowed step OneRun s events) :
    ∃ v, Backed g (run step s events) v ∧ Synced v := by
  apply invariant (fun s => ∃ v, Backed g s v ∧ Synced v) _ _ all
  · obtain ⟨v, backed, initial⟩ := Started.backed started
    exact ⟨v, backed, Initial.synced initial⟩
  · rintro s event ⟨v, backed, synced⟩ allowed
    cases event with
    | request request junk =>
      obtain ⟨chance, _, backed', _, respects⟩ := backed.serve allowed (fun _ => synced) junk
      exact ⟨_, backed', respects.synced synced⟩
    | restart junk => exact absurd allowed id
end Serving

end OsProjects.BlockOwnership
