import OsProjects.VolumeSteps

/-!
Soundness of a volume: the super block is the one `mkfs` wrote, the counters are
inside their regions and every bit up to them is set, and each allocated inode
has pointers into allocated data blocks, a size its pointers can hold, and, if
it is a directory, a whole number of entries and a block for each of them. Every
request keeps this, also after a restart has put the counters back to zero.
-/

namespace OsProjects.VolumeSound

open ByteStore UfsLayout FileServer Volume VolumeSteps Function

variable {g : Geometry} {v v' : Vol} {n : Nat}

structure NodeOk (g : Geometry) (dataBit : Nat → Bool) (nd : Node) : Prop where
  pointer : ∀ i b, nd.direct i = some b →
    i < 30 ∧ ∃ k, k < g.numData ∧ dataBit k = true ∧ b = g.dataRegionAddr + k
  size : nd.size ≤ 122880
  aligned : nd.type = ufsDirectory → 32 ∣ nd.size
  mapped : nd.type = ufsDirectory → ∀ i, 4096 * i < nd.size → nd.direct i ≠ none

structure Sound (g : Geometry) (v : Vol) : Prop where
  highestInode_lt : v.highestInode < g.numInodes
  hghstAllocDblk_lt : v.hghstAllocDblk < g.numData
  inodeBit_le : ∀ n, n ≤ v.highestInode → v.inodeBit n = true
  inodeBit_lt : ∀ n, v.inodeBit n = true → n < g.numInodes
  dataBit_le : ∀ k, k ≤ v.hghstAllocDblk → v.dataBit k = true
  node : ∀ n, v.inodeBit n = true → NodeOk g v.dataBit (v.node n)
  boot : ∀ index, index < 40 → v.boot index = g.super.encode index

theorem NodeOk.mono {dataBit dataBit' : Nat → Bool} {nd : Node} (ok : NodeOk g dataBit nd)
    (more : ∀ k, dataBit k = true → dataBit' k = true) : NodeOk g dataBit' nd := by
  refine { ok with pointer := ?_ }
  intro i b here
  obtain ⟨inside, k, bound, bit, equal⟩ := ok.pointer i b here
  exact ⟨inside, k, bound, more k bit, equal⟩

theorem Advances.keeps (advances : Advances g v v') {k : Nat} (bit : v.dataBit k = true) :
    v'.dataBit k = true := by
  rw [advances.dataBit, bit, Bool.true_or]

theorem Advances.dataBit_le (advances : Advances g v v')
    (below : ∀ k, k ≤ v.hghstAllocDblk → v.dataBit k = true) (k : Nat)
    (bound : k ≤ v'.hghstAllocDblk) : v'.dataBit k = true := by
  by_cases old : k ≤ v.hghstAllocDblk
  · exact Advances.keeps advances (below k old)
  · rw [advances.dataBit]
    have passed : v.hghstAllocDblk < k ∧ k ≤ v'.hghstAllocDblk := by omega
    simp [passed]

/-- Pointers stay good when they are old ones or blocks just allocated. -/
theorem NodeOk.fills {nd nd' : Node} (ok : NodeOk g v.dataBit nd) (advances : Advances g v v')
    (fills : Fills g v.hghstAllocDblk v'.hghstAllocDblk nd nd') (i b : Nat)
    (here : nd'.direct i = some b) :
    i < 30 ∧ ∃ k, k < g.numData ∧ v'.dataBit k = true ∧ b = g.dataRegionAddr + k := by
  rcases fills.pointer i with same | ⟨inside, k, low, high, new⟩
  · obtain ⟨inside, k, bound, bit, equal⟩ := ok.pointer i b (same ▸ here)
    exact ⟨inside, k, bound, Advances.keeps advances bit, equal⟩
  · refine ⟨inside, k, lt_of_le_of_lt high advances.counter_lt, ?_, ?_⟩
    · rw [advances.dataBit]
      simp [low, high]
    · exact Option.some.inj (here.symm.trans new)

theorem Sound.writes (sound : Sound g v) (allocated : v.inodeBit n = true)
    (writes : Writes g n v v') (aligned : (v'.node n).type = ufsDirectory → 32 ∣ (v'.node n).size)
    (mapped : (v'.node n).type = ufsDirectory →
      ∀ i, 4096 * i < (v'.node n).size → (v'.node n).direct i ≠ none) : Sound g v' := by
  have ok := sound.node n allocated
  refine {
    highestInode_lt := ?_, hghstAllocDblk_lt := writes.counter_lt, inodeBit_le := ?_
    inodeBit_lt := ?_, dataBit_le := Advances.dataBit_le writes.toAdvances sound.dataBit_le
    node := ?_, boot := writes.boot ▸ sound.boot }
  · rw [writes.highestInode]
    exact sound.highestInode_lt
  · rw [writes.highestInode, writes.inodeBit]
    exact sound.inodeBit_le
  · rw [writes.inodeBit]
    exact sound.inodeBit_lt
  · intro m bit
    rw [writes.inodeBit] at bit
    by_cases same : m = n
    · subst same
      refine ⟨ok.fills writes.toAdvances writes.fills, ?_, aligned, mapped⟩
      have bound := writes.size
      have := ok.size
      omega
    · rw [writes.others m same]
      exact (sound.node m bit).mono fun k => Advances.keeps writes.toAdvances

theorem writeFile_sound (sound : Sound g v) (allocated : v.inodeBit n = true) (buf : Bytes)
    (offset nbytes : Nat) (small : nbytes ≤ 4096) :
    Sound g (v.writeFile g n buf offset nbytes ufsRegularFile).2 := by
  have outcome := writeFile_outcome n buf offset nbytes ufsRegularFile sound.hghstAllocDblk_lt
  have writes := outcome.writes sound.hghstAllocDblk_lt small
  by_cases regular : (v.node n).type = ufsRegularFile
  · have never : ((v.writeFile g n buf offset nbytes ufsRegularFile).2.node n).type ≠
        ufsDirectory := by
      rw [writes.fills.type, regular]
      decide
    exact sound.writes allocated writes (fun dir => absurd dir never) fun dir => absurd dir never
  · have refused : v.writeFile g n buf offset nbytes ufsRegularFile = (false, v) := by
      simp [Vol.writeFile, regular]
    rw [refused]
    exact sound

section Entries

inductive EntryOutcome (g : Geometry) (v : Vol) (n : Nat) (de : Bytes) : Vol → Prop where
  | lost (reason : (v.node n).type ≠ ufsDirectory ∨ 29 < (v.node n).size / 4096 ∨
      (v.node n).direct ((v.node n).size / 4096) = none ∧
        v.hghstAllocDblk = g.numData - 1) : EntryOutcome g v n de v
  | old (b : Nat) (dir : (v.node n).type = ufsDirectory) (inside : (v.node n).size / 4096 ≤ 29)
      (mapped : (v.node n).direct ((v.node n).size / 4096) = some b) :
      EntryOutcome g v n de
        ((v.putBlock b ((v.node n).size % 4096) 32 de).setNode n
          { v.node n with size := (v.node n).size + 32 })
  | new (v1 : Vol) (dir : (v.node n).type = ufsDirectory) (inside : (v.node n).size / 4096 ≤ 29)
      (hole : (v.node n).direct ((v.node n).size / 4096) = none) (alloc : Allocates g v v1)
      (next : v1.hghstAllocDblk = v.hghstAllocDblk + 1) :
      EntryOutcome g v n de
        ((v1.putBlock (g.dataRegionAddr + v1.hghstAllocDblk) ((v.node n).size % 4096) 32 de).setNode
          n { (v.node n).setPtr ((v.node n).size / 4096)
                (g.dataRegionAddr + v1.hghstAllocDblk) with
              size := (v.node n).size + 32 })

/-- In a directory only the block of the new entry can be missing. -/
theorem fillHoles_dir {nd : Node} (d : Nat) (below : ∀ i, i < d → nd.direct i ≠ none) :
    Vol.fillHoles g d v nd = (some nd, v) := by
  cases d with
  | zero => rfl
  | succ d =>
    obtain ⟨b, mapped⟩ := Option.ne_none_iff_exists'.mp (below d (Nat.lt_succ_self d))
    simp [Vol.fillHoles, mapped]

theorem writeEntry_outcome (ok : NodeOk g v.dataBit (v.node n))
    (bound : v.hghstAllocDblk < g.numData) (de : Bytes) :
    EntryOutcome g v n de (v.writeFile g n de (v.node n).size 32 ufsDirectory).2 := by
  unfold Vol.writeFile
  by_cases wrong : (v.node n).type ≠ ufsDirectory ∨ 29 < (v.node n).size / 4096
  · simp only [wrong, ↓reduceIte]
    rcases wrong with file | beyond
    · exact .lost (Or.inl file)
    · exact .lost (Or.inr (Or.inl beyond))
  · have dir : (v.node n).type = ufsDirectory := by
      by_contra file
      exact wrong (Or.inl file)
    have inside : (v.node n).size / 4096 ≤ 29 := by omega
    have fits : 32 ≤ 4096 - (v.node n).size % 4096 := by
      have := ok.aligned dir
      omega
    have below : ∀ i, i < (v.node n).size / 4096 → (v.node n).direct i ≠ none :=
      fun i before => ok.mapped dir i (by omega)
    simp only [wrong, ↓reduceIte, Vol.fillHoles]
    cases hole : (v.node n).direct ((v.node n).size / 4096) with
    | some b =>
      have place : (v.node n).at' ((v.node n).size / 4096) = b := by simp [Node.at', hole]
      have stored := @EntryOutcome.old g v n de b dir inside hole
      simpa [Vol.writeBlocks, fits, place, Vol.grow, Vol.setNode, Vol.putBlock] using stored
    | none =>
      rcases allocDblk_cases bound with ⟨full, none⟩ | ⟨v1, block, alloc, next⟩
      · simp only [none]
        exact .lost (Or.inr (Or.inr ⟨hole, full⟩))
      · simp only [block]
        rw [fillHoles_dir]
        · have stored := @EntryOutcome.new g v n de v1 dir inside hole alloc next
          simpa [Vol.writeBlocks, fits, Node.at', Vol.grow, Vol.setNode, Vol.putBlock,
            Node.setPtr] using stored
        · intro i before
          rw [Node.setPtr_other (by omega)]
          exact below i before

theorem EntryOutcome.writes {de : Bytes} (outcome : EntryOutcome g v n de v')
    (ok : NodeOk g v.dataBit (v.node n)) (bound : v.hghstAllocDblk < g.numData) :
    Writes g n v v' := by
  cases outcome with
  | lost reason => exact (Allocates.refl bound).writes n
  | old b dir inside mapped =>
    refine writes_store ⟨le_refl _, bound, (Advances.refl bound).dataBit⟩ rfl rfl rfl rfl
      ((Fills.refl _).resize _) (fun i mapped => mapped) ?_ (fun other foreign => ?_)
    · have := ok.aligned dir
      simp only
      omega
    · have apart : other ≠ b := fun same => foreign _ (same ▸ mapped)
      exact putBlock_kept _ _ _ _ _ _ apart
  | new v1 dir inside hole alloc next =>
    have fills : Fills g v.hghstAllocDblk v1.hghstAllocDblk (v.node n)
        ((v.node n).setPtr ((v.node n).size / 4096) (g.dataRegionAddr + v1.hghstAllocDblk)) := by
      rw [next]
      exact Fills.setPtr _ _ (by omega)
    refine writes_store ⟨alloc.counter_le, alloc.counter_lt, alloc.dataBit⟩ alloc.boot
      alloc.inodeBit alloc.highestInode ?_ (fills.resize ((v.node n).size + 32)) (fun i old => ?_) ?_
      (fun other foreign => ?_)
    · simp [Vol.setNode, Vol.putBlock, alloc.node]
    · by_cases same : i = (v.node n).size / 4096
      · simp [same]
      · simp only [Node.setPtr_other same]
        exact old
    · have := ok.aligned dir
      simp only
      omega
    · have apart : other ≠ g.dataRegionAddr + v1.hghstAllocDblk := by
        rintro rfl
        exact foreign ((v.node n).size / 4096) (by simp)
      rw [← congrFun alloc.block other]
      exact putBlock_kept _ _ _ _ _ _ apart

theorem EntryOutcome.sound {de : Bytes} (outcome : EntryOutcome g v n de v') (sound : Sound g v)
    (allocated : v.inodeBit n = true) : Sound g v' := by
  have ok := sound.node n allocated
  have writes := outcome.writes ok sound.hghstAllocDblk_lt
  apply sound.writes allocated writes
  · intro dir
    rw [writes.fills.type] at dir
    have whole := ok.aligned dir
    cases outcome with
    | lost reason => exact whole
    | old b dir' inside mapped | new v1 dir' inside hole alloc next =>
      simp only [Vol.setNode, update_self]
      omega
  · intro dir i before
    rw [writes.fills.type] at dir
    -- either the block was needed before, or it is the one of the new entry
    by_cases old : 4096 * i < (v.node n).size
    · exact writes.mapped i (ok.mapped dir i old)
    · cases outcome with
      | lost reason => exact absurd before old
      | old b dir' inside mapped =>
        simp only [Vol.setNode, update_self] at before ⊢
        have whole := ok.aligned dir
        have last : i = (v.node n).size / 4096 := by omega
        rw [last, mapped]
        exact Option.some_ne_none b
      | new v1 dir' inside hole alloc next =>
        simp only [Vol.setNode, update_self] at before ⊢
        have whole := ok.aligned dir
        have last : i = (v.node n).size / 4096 := by omega
        rw [last, Node.setPtr_same]
        exact Option.some_ne_none _
end Entries

theorem newInode_cases (sound : Sound g v) (type : UInt32) :
    (v.highestInode = g.numInodes - 1 ∧ v.newInode g type = (none, v)) ∨
      (v.highestInode + 1 < g.numInodes ∧ v.newInode g type = (some (v.highestInode + 1), { v with
            highestInode := v.highestInode + 1
            inodeBit := update v.inodeBit (v.highestInode + 1) true
            node := update v.node (v.highestInode + 1) (Node.fresh type) })) := by
  have bound := sound.highestInode_lt
  unfold Vol.newInode
  split
  · rename_i full
    exact Or.inl ⟨full, rfl⟩
  · rename_i room
    exact Or.inr ⟨by omega, rfl⟩

theorem nodeOk_fresh (dataBit : Nat → Bool) (type : UInt32) : NodeOk g dataBit (Node.fresh type) := by
  refine ⟨?_, Nat.zero_le _, fun _ => Nat.dvd_zero 32, ?_⟩
  · intro i b impossible
    cases impossible
  · intro _ i impossible
    exact absurd impossible (Nat.not_lt_zero _)

theorem newInode_taken (sound : Sound g v) (room : v.highestInode + 1 < g.numInodes)
    (type : UInt32) : v.newInode g type = (some (v.highestInode + 1), { v with
      highestInode := v.highestInode + 1
      inodeBit := update v.inodeBit (v.highestInode + 1) true
      node := update v.node (v.highestInode + 1) (Node.fresh type) }) := by
  rcases newInode_cases sound type with ⟨full, _⟩ | ⟨_, taken⟩
  · omega
  · exact taken

theorem newInode_sound (sound : Sound g v) (room : v.highestInode + 1 < g.numInodes)
    (type : UInt32) : Sound g (v.newInode g type).2 := by
  rw [newInode_taken sound room type]
  refine { sound with highestInode_lt := room, inodeBit_le := ?_, inodeBit_lt := ?_, node := ?_ }
  · intro m bound
    by_cases new : m = v.highestInode + 1
    · simp [new]
    · simp only [update_of_ne new]
      exact sound.inodeBit_le m (by simp only at bound; omega)
  · intro m bit
    by_cases new : m = v.highestInode + 1
    · exact new ▸ room
    · simp only [update_of_ne new] at bit
      exact sound.inodeBit_lt m bit
  · intro m bit
    by_cases new : m = v.highestInode + 1
    · simp only [new, update_self]
      exact nodeOk_fresh _ type
    · simp only [update_of_ne new] at bit ⊢
      exact sound.node m bit

theorem Sound.store (sound : Sound g v) {nd : Node} (ok : NodeOk g v.dataBit nd) (n : Nat)
    (block : Nat → Bytes) : Sound g { v.setNode n nd with block := block } := by
  refine { sound with node := ?_ }
  intro m bit
  by_cases same : m = n
  · subst same
    simpa [Vol.setNode] using ok
  · simpa [Vol.setNode, same] using sound.node m bit

theorem Allocates.sound (alloc : Allocates g v v') (sound : Sound g v) : Sound g v' := by
  refine {
    highestInode_lt := ?_, hghstAllocDblk_lt := alloc.counter_lt, inodeBit_le := ?_
    inodeBit_lt := ?_, dataBit_le := Advances.dataBit_le alloc.toAdvances sound.dataBit_le
    node := ?_, boot := alloc.boot ▸ sound.boot }
  · rw [alloc.highestInode]
    exact sound.highestInode_lt
  · rw [alloc.highestInode, alloc.inodeBit]
    exact sound.inodeBit_le
  · rw [alloc.inodeBit]
    exact sound.inodeBit_lt
  · intro m bit
    rw [alloc.inodeBit] at bit
    rw [alloc.node]
    exact (sound.node m bit).mono fun k => Advances.keeps alloc.toAdvances

theorem makeDir_cases (sound : Sound g v) (n p : Nat) (junk : Bytes) :
    (v.hghstAllocDblk = g.numData - 1 ∧ v.makeDir g n p junk = (false, v)) ∨
      ∃ v1, Allocates g v v1 ∧ v1.hghstAllocDblk = v.hghstAllocDblk + 1 ∧
        v.makeDir g n p junk = (true, (v1.putBlock (g.dataRegionAddr + v1.hghstAllocDblk) 0 4096
            (freshDir junk (UInt32.ofNat n) (UInt32.ofNat p))).setNode n
              { (v.node n).setPtr 0 (g.dataRegionAddr + v1.hghstAllocDblk) with size := 64 }) := by
  unfold Vol.makeDir
  rcases allocDblk_cases sound.hghstAllocDblk_lt with ⟨full, none⟩ | ⟨v1, block, alloc, next⟩
  · exact Or.inl ⟨full, by simp only [none]⟩
  · exact Or.inr ⟨v1, alloc, next, by simp only [block, alloc.node]⟩

theorem makeDir_inodeBit (sound : Sound g v) (n p : Nat) (junk : Bytes) :
    (v.makeDir g n p junk).2.inodeBit = v.inodeBit := by
  rcases makeDir_cases sound n p junk with ⟨_, full⟩ | ⟨v1, alloc, _, made⟩
  · rw [full]
  · rw [made]
    exact alloc.inodeBit

theorem makeDir_sound (sound : Sound g v) (allocated : v.inodeBit n = true) (p : Nat)
    (junk : Bytes) : Sound g (v.makeDir g n p junk).2 := by
  rcases makeDir_cases sound n p junk with ⟨_, full⟩ | ⟨v1, alloc, next, made⟩
  · rw [full]
    exact sound
  · rw [made]
    have sound1 := Allocates.sound alloc sound
    apply Sound.store sound1
    refine ⟨?_, show 64 ≤ 122880 by decide, fun _ => show 32 ∣ 64 by decide, ?_⟩
    · intro i b here
      by_cases first : i = 0
      · subst first
        simp only [Node.setPtr_same, Option.some.injEq] at here
        exact ⟨by decide, v1.hghstAllocDblk, alloc.counter_lt,
          sound1.dataBit_le _ (le_refl _), here.symm⟩
      · simp only [Node.setPtr_other first] at here
        have bit1 : v1.inodeBit n = true := by rw [alloc.inodeBit]; exact allocated
        exact (sound1.node n bit1).pointer i b (by rw [alloc.node]; exact here)
    · intro _ i before
      have first : i = 0 := by simp only at before; omega
      subst first
      simp

theorem addEntry_sound (sound : Sound g v) (allocated : v.inodeBit n = true) (ninum : Nat)
    (name : List UInt8) (junk : Bytes) : Sound g (v.addEntry g n ninum name junk) :=
  (writeEntry_outcome (sound.node n allocated) sound.hghstAllocDblk_lt _).sound sound allocated

inductive CreatOutcome (g : Geometry) (v : Vol) (p : Nat) (type : UInt32) (name : List UInt8)
    (chance : Chance) : Bool → Vol → Prop where
  | notDir (file : (v.node p).type ≠ ufsDirectory) : CreatOutcome g v p type name chance false v
  | present (dir : (v.node p).type = ufsDirectory) (found : (v.lookup p name).isSome) :
      CreatOutcome g v p type name chance true v
  | noInode (dir : (v.node p).type = ufsDirectory) (absent : v.lookup p name = none)
      (full : v.highestInode = g.numInodes - 1) : CreatOutcome g v p type name chance false v
  | noBlock (dir : (v.node p).type = ufsDirectory) (absent : v.lookup p name = none)
      (room : v.highestInode + 1 < g.numInodes) (isDir : type = ufsDirectory)
      (full : v.hghstAllocDblk = g.numData - 1) :
      CreatOutcome g v p type name chance false (v.newInode g type).2
  | file (dir : (v.node p).type = ufsDirectory) (absent : v.lookup p name = none)
      (room : v.highestInode + 1 < g.numInodes) (isFile : type ≠ ufsDirectory) :
      CreatOutcome g v p type name chance true
        ((v.newInode g type).2.addEntry g p (v.highestInode + 1) name chance.entry)
  | dir (dir : (v.node p).type = ufsDirectory) (absent : v.lookup p name = none)
      (room : v.highestInode + 1 < g.numInodes) (isDir : type = ufsDirectory)
      (block : v.hghstAllocDblk + 1 < g.numData) :
      CreatOutcome g v p type name chance true
        (((v.newInode g type).2.makeDir g (v.highestInode + 1) p chance.dir).2.addEntry g p
          (v.highestInode + 1) name chance.entry)

theorem creatFile_outcome (sound : Sound g v) (p : Nat) (type : UInt32) (name : List UInt8)
    (chance : Chance) :
    CreatOutcome g v p type name chance (v.creatFile g p type name chance).1
      (v.creatFile g p type name chance).2 := by
  unfold Vol.creatFile
  by_cases dir : (v.node p).type = ufsDirectory
  · by_cases found : (v.lookup p name).isSome
    · simp only [dir, found, ne_eq, not_true, ↓reduceIte]
      exact .present dir found
    · have absent : v.lookup p name = none := by simpa using found
      simp only [dir, found, ne_eq, not_true, ↓reduceIte, Bool.false_eq_true]
      rcases newInode_cases sound type with ⟨full, none⟩ | ⟨room, taken⟩
      · simp only [none]
        exact .noInode dir absent full
      · have sound1 := newInode_sound sound room type
        have result : v.newInode g type = (some (v.highestInode + 1), (v.newInode g type).2) := by
          rw [taken]
        have counter : (v.newInode g type).2.hghstAllocDblk = v.hghstAllocDblk := by rw [taken]
        rw [result]
        by_cases isDir : type = ufsDirectory
        · simp only [isDir, ↓reduceIte]
          rw [isDir] at sound1 counter
          rcases makeDir_cases sound1 (v.highestInode + 1) p chance.dir with
            ⟨full, none⟩ | ⟨v1, alloc, next, made⟩
          · simp only [none]
            exact .noBlock dir absent room rfl (counter ▸ full)
          · have bound := alloc.counter_lt
            have stored := @CreatOutcome.dir g v p ufsDirectory name chance dir absent room rfl
              (by omega)
            simpa [made] using stored
        · simp only [isDir, ↓reduceIte]
          exact .file dir absent room isDir
  · simp only [dir, ne_eq, not_false_eq_true, ↓reduceIte]
    exact .notDir dir

theorem CreatOutcome.sound {p : Nat} {type : UInt32} {name : List UInt8} {chance : Chance}
    {ok : Bool} (outcome : CreatOutcome g v p type name chance ok v') (sound : Sound g v)
    (allocated : v.inodeBit p = true) : Sound g v' := by
  have taken : ∀ room : v.highestInode + 1 < g.numInodes,
      Sound g (v.newInode g type).2 ∧ (v.newInode g type).2.inodeBit p = true ∧
        (v.newInode g type).2.inodeBit (v.highestInode + 1) = true := by
    intro room
    refine ⟨newInode_sound sound room type, ?_⟩
    rw [newInode_taken sound room type]
    by_cases new : p = v.highestInode + 1
    · simp [new]
    · simp [new, allocated]
  cases outcome with
  | notDir | present | noInode => exact sound
  | noBlock dir absent room isDir full => exact (taken room).1
  | file dir absent room isFile =>
    obtain ⟨sound1, bit, _⟩ := taken room
    exact addEntry_sound sound1 bit _ name chance.entry
  | dir dir absent room isDir block =>
    obtain ⟨sound1, bit, newBit⟩ := taken room
    refine addEntry_sound (makeDir_sound sound1 newBit p chance.dir) ?_ _ name chance.entry
    rw [makeDir_inodeBit sound1]
    exact bit

section Lookups

theorem mem_slots {blocks i j : Nat} : (i, j) ∈ Vol.slots blocks ↔ i < blocks ∧ j < 128 := by
  simp [Vol.slots]

theorem lookup_found {p i j : Nat} {name : List UInt8} (found : v.lookup p name = some (i, j)) :
    (v.node p).type = ufsDirectory ∧ i < (v.node p).blocksUsed ∧ j < 128 ∧
      v.hit name ((v.node p).at' i) j = true := by
  unfold Vol.lookup at found
  split at found
  · rename_i dir
    have inside := mem_slots.mp (List.mem_of_find?_eq_some found)
    exact ⟨dir, inside.1, inside.2, by simpa using List.find?_some found⟩
  · cases found

/-- The block of a found entry is a data block of the directory. -/
theorem NodeOk.scanned {dataBit : Nat → Bool} {nd : Node} (ok : NodeOk g dataBit nd)
    (dir : nd.type = ufsDirectory) {i : Nat} (inside : i < nd.blocksUsed) :
    nd.direct i = some (nd.at' i) := by
  have needed : 4096 * i < nd.size := by
    simp only [Node.blocksUsed] at inside
    omega
  obtain ⟨b, mapped⟩ := Option.ne_none_iff_exists'.mp (ok.mapped dir i needed)
  simp [Node.at', mapped]

theorem removeEntry_sound (sound : Sound g v) {p i j : Nat} (allocated : v.inodeBit p = true)
    {name : List UInt8} (found : v.lookup p name = some (i, j)) :
    Sound g (v.removeEntry p ((v.node p).at' i) j) := by
  have ok := sound.node p allocated
  obtain ⟨dir, inside, _, _⟩ := lookup_found found
  have mapped := ok.scanned dir inside
  apply Sound.store sound
  refine ⟨?_, ?_, ?_, ?_⟩
  · intro slot b here
    by_cases first : slot = 0
    · subst first
      simp only [Node.setPtr_same, Option.some.injEq] at here
      exact ⟨by decide, (ok.pointer i b (here ▸ mapped)).2⟩
    · simp only [Node.setPtr_other first] at here
      exact ok.pointer slot b here
  · have := ok.size
    simp only
    omega
  · intro _
    have := ok.aligned dir
    simp only
    omega
  · intro _ slot before
    by_cases first : slot = 0
    · simp [first]
    · simp only [Node.setPtr_other first]
      exact ok.mapped dir slot (by simp only at before; omega)

theorem unlinkFile_sound (sound : Sound g v) {p : Nat} (allocated : v.inodeBit p = true)
    (name : List UInt8) (refuse : Bool) : Sound g (v.unlinkFile p name refuse).2 := by
  unfold Vol.unlinkFile
  cases found : v.lookup p name with
  | none => exact sound
  | some slot =>
    cases refuse with
    | true => exact sound
    | false => exact removeEntry_sound sound allocated found
end Lookups

def inode : Request → UInt32
  | .lookup pinum _ => pinum
  | .stat inum => inum
  | .write inum _ _ _ => inum
  | .read inum _ _ => inum
  | .creat pinum _ _ => pinum
  | .unlink pinum _ => pinum

def length : Request → Nat
  | .write _ _ _ nbytes => nbytes.toNat
  | .read _ _ nbytes => nbytes.toNat
  | _ => 0

def name : Request → List UInt8
  | .lookup _ name => name
  | .creat _ _ name => name
  | .unlink _ name => name
  | _ => []

structure Admissible (v : Vol) (request : Request) : Prop where
  allocated : v.inodeBit (inode request).toNat = true
  small : length request ≤ 4096
  short : (name request).length ≤ 28

theorem serve_sound (sound : Sound g v) {request : Request} (admissible : Admissible v request)
    (chance : Chance) : Sound g (v.serve g request chance).2 := by
  obtain ⟨allocated, small, _⟩ := admissible
  cases request with
  | lookup | stat | read => exact sound
  | write inum buf offset nbytes => exact writeFile_sound sound allocated buf _ _ small
  | creat pinum type name => exact (creatFile_outcome sound _ type name chance).sound sound allocated
  | unlink pinum name => exact unlinkFile_sound sound allocated name chance.refuse

end OsProjects.VolumeSound
