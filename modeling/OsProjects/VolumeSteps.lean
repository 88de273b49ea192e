import OsProjects.Volume

/-!
What one operation can do to a volume. Allocation only moves the data counter
and sets the bits it passes; filling holes gives an inode new pointers to
distinct blocks behind the old counter. `WriteOutcome` lists the six ways
`write_file` ends, and `Writes` is what all of them have in common.
-/

namespace OsProjects.VolumeSteps

open ByteStore FileServer Volume

variable {g : Geometry} {v v' v'' : Vol}

structure Advances (g : Geometry) (v v' : Vol) : Prop where
  counter_le : v.hghstAllocDblk ≤ v'.hghstAllocDblk
  counter_lt : v'.hghstAllocDblk < g.numData
  dataBit : ∀ k, v'.dataBit k =
    (v.dataBit k || decide (v.hghstAllocDblk < k ∧ k ≤ v'.hghstAllocDblk))

theorem Advances.refl (bound : v.hghstAllocDblk < g.numData) : Advances g v v := by
  refine ⟨le_refl _, bound, ?_⟩
  intro k
  have never : ¬ (v.hghstAllocDblk < k ∧ k ≤ v.hghstAllocDblk) := by omega
  simp [never]

theorem Advances.trans (first : Advances g v v') (second : Advances g v' v'') :
    Advances g v v'' := by
  have below := first.counter_le
  have above := second.counter_le
  refine ⟨le_trans below above, second.counter_lt, ?_⟩
  intro k
  rw [second.dataBit, first.dataBit, Bool.or_assoc, ← Bool.decide_or]
  congr 2
  rw [eq_iff_iff]
  omega

structure Allocates (g : Geometry) (v v' : Vol) : Prop extends Advances g v v' where
  same : v' = { v with hghstAllocDblk := v'.hghstAllocDblk, dataBit := v'.dataBit }

namespace Allocates

theorem refl (bound : v.hghstAllocDblk < g.numData) : Allocates g v v := ⟨Advances.refl bound, rfl⟩

theorem trans (first : Allocates g v v') (second : Allocates g v' v'') : Allocates g v v'' := by
  refine ⟨first.toAdvances.trans second.toAdvances, ?_⟩
  rw [second.same, first.same]

theorem node (alloc : Allocates g v v') : v'.node = v.node := by rw [alloc.same]

theorem block (alloc : Allocates g v v') : v'.block = v.block := by rw [alloc.same]

theorem boot (alloc : Allocates g v v') : v'.boot = v.boot := by rw [alloc.same]

theorem inodeBit (alloc : Allocates g v v') : v'.inodeBit = v.inodeBit := by rw [alloc.same]

theorem highestInode (alloc : Allocates g v v') : v'.highestInode = v.highestInode := by
  rw [alloc.same]
end Allocates

theorem allocDblk_cases (bound : v.hghstAllocDblk < g.numData) :
    (v.hghstAllocDblk = g.numData - 1 ∧ v.allocDblk g = (none, v)) ∨
      ∃ v', v.allocDblk g = (some (g.dataRegionAddr + v'.hghstAllocDblk), v') ∧
        Allocates g v v' ∧ v'.hghstAllocDblk = v.hghstAllocDblk + 1 := by
  have enough := g.enough_data
  unfold Vol.allocDblk
  split
  · rename_i full
    exact Or.inl ⟨full, rfl⟩
  · rename_i room
    refine Or.inr ⟨{ v with
      hghstAllocDblk := v.hghstAllocDblk + 1
      dataBit := Function.update v.dataBit (v.hghstAllocDblk + 1) true }, rfl,
      ⟨⟨Nat.le_succ _, ?_, ?_⟩, rfl⟩, rfl⟩
    · change v.hghstAllocDblk + 1 < g.numData
      omega
    intro k
    by_cases next : k = v.hghstAllocDblk + 1
    · simp [next]
    · have miss : ¬ (v.hghstAllocDblk < k ∧ k ≤ v.hghstAllocDblk + 1) := by omega
      simp [next, miss]

/-- `nd'` is `nd` with some pointers replaced by the blocks a data counter has
passed between `c` and `c'`, each used once. -/
structure Fills (g : Geometry) (c c' : Nat) (nd nd' : Node) : Prop where
  type : nd'.type = nd.type
  pointer : ∀ i, nd'.direct i = nd.direct i ∨
    i < 30 ∧ ∃ k, c < k ∧ k ≤ c' ∧ nd'.direct i = some (g.dataRegionAddr + k)
  once : (∀ i k, nd.direct i = some (g.dataRegionAddr + k) → k ≤ c) →
    ∀ i j k, nd'.direct i = some (g.dataRegionAddr + k) →
      nd'.direct j = some (g.dataRegionAddr + k) → c < k → i = j

namespace Fills
variable {c c' c'' : Nat} {nd nd' nd'' : Node}

theorem refl (nd : Node) : Fills g c c' nd nd := by
  refine ⟨rfl, fun i => Or.inl rfl, ?_⟩
  intro old i j k here _ new
  have := old i k here
  omega

theorem trans (first : Fills g c c' nd nd') (second : Fills g c' c'' nd' nd'')
    (below : c ≤ c') (above : c' ≤ c'') : Fills g c c'' nd nd'' := by
  refine ⟨second.type.trans first.type, ?_, ?_⟩
  · intro i
    rcases second.pointer i with same | ⟨inside, k, low, high, here⟩
    · rcases first.pointer i with same' | ⟨inside, k, low, high, here⟩
      · exact Or.inl (same.trans same')
      · exact Or.inr ⟨inside, k, low, by omega, same.trans here⟩
    · exact Or.inr ⟨inside, k, by omega, high, here⟩
  · intro old i j k here there new
    have older : ∀ i k, nd'.direct i = some (g.dataRegionAddr + k) → k ≤ c' := by
      intro i k here
      rcases first.pointer i with same | ⟨_, k', _, high, there⟩
      · have := old i k (same ▸ here)
        omega
      · have := Option.some.inj (here.symm.trans there)
        omega
    by_cases recent : c' < k
    · exact second.once older i j k here there recent
    · -- a block of the first part: the second part left both pointers alone
      have kept : ∀ i, nd''.direct i = some (g.dataRegionAddr + k) →
          nd'.direct i = some (g.dataRegionAddr + k) := by
        intro i here
        rcases second.pointer i with same | ⟨_, k', low, _, there⟩
        · exact same ▸ here
        · have := Option.some.inj (here.symm.trans there)
          omega
      exact first.once old i j k (kept i here) (kept j there) new

theorem setPtr (nd : Node) (i : Nat) (inside : i < 30) :
    Fills g c (c + 1) nd (nd.setPtr i (g.dataRegionAddr + (c + 1))) := by
  refine ⟨rfl, ?_, ?_⟩
  · intro other
    by_cases same : other = i
    · subst same
      exact Or.inr ⟨inside, c + 1, by omega, le_refl _, Node.setPtr_same _ _ _⟩
    · exact Or.inl (Node.setPtr_other same)
  · intro old other another k here there new
    have only : ∀ slot, (nd.setPtr i (g.dataRegionAddr + (c + 1))).direct slot =
        some (g.dataRegionAddr + k) → slot = i := by
      intro slot here
      by_contra apart
      rw [Node.setPtr_other apart] at here
      have := old slot k here
      omega
    rw [only other here, only another there]

theorem resize (fills : Fills g c c' nd nd') (size : Nat) :
    Fills g c c' nd { nd' with size := size } :=
  ⟨fills.type, fills.pointer, fills.once⟩
end Fills

/-- What `fillHoles` returns, whether or not the blocks suffice. -/
theorem fillHoles_spec (d : Nat) (inside : d ≤ 30) (bound : v.hghstAllocDblk < g.numData)
    (nd : Node) :
    Allocates g v (Vol.fillHoles g d v nd).2 ∧ (∀ nd', (Vol.fillHoles g d v nd).1 = some nd' →
        Fills g v.hghstAllocDblk (Vol.fillHoles g d v nd).2.hghstAllocDblk nd nd' ∧
          nd'.size = nd.size ∧
          (∀ last, d = last + 1 → nd'.direct last ≠ none) ∧
          ∀ i, nd.direct i ≠ none ∨ d ≤ i → nd'.direct i = nd.direct i) ∧
      ((Vol.fillHoles g d v nd).1 = none →
        (Vol.fillHoles g d v nd).2.hghstAllocDblk = g.numData - 1) := by
  -- the loop goes down from `d`, each turn on the volume and the node of the turn before
  induction d generalizing v nd with
  | zero =>
    refine ⟨Allocates.refl bound, ?_, ?_⟩
    · intro nd' done
      cases done
      refine ⟨Fills.refl nd, rfl, ?_, fun i _ => rfl⟩
      intro last impossible
      omega
    · intro impossible
      cases impossible
  | succ d ih =>
    simp only [Vol.fillHoles]
    cases hole : nd.direct d with
    | some b =>
      refine ⟨Allocates.refl bound, ?_, ?_⟩
      · intro nd' done
        cases done
        refine ⟨Fills.refl nd, rfl, ?_, fun i _ => rfl⟩
        intro last equal
        have : last = d := by omega
        rw [this, hole]
        exact Option.some_ne_none b
      · intro impossible
        cases impossible
    | none =>
      rcases allocDblk_cases bound with ⟨full, none⟩ | ⟨v1, block, alloc, next⟩
      · simp only [none]
        refine ⟨Allocates.refl bound, ?_, fun _ => full⟩
        intro nd' impossible
        cases impossible
      · simp only [block]
        obtain ⟨allocs, filled, short⟩ := ih (by omega) alloc.counter_lt
          (nd.setPtr d (g.dataRegionAddr + v1.hghstAllocDblk))
        refine ⟨alloc.trans allocs, ?_, short⟩
        intro nd' done
        obtain ⟨fills, size, _, kept⟩ := filled nd' done
        have first : Fills g v.hghstAllocDblk v1.hghstAllocDblk nd
            (nd.setPtr d (g.dataRegionAddr + v1.hghstAllocDblk)) := by
          rw [next]
          exact Fills.setPtr nd d (by omega)
        refine ⟨first.trans fills alloc.counter_le allocs.counter_le, size, ?_, ?_⟩
        · intro last equal
          have : last = d := by omega
          rw [this, kept d (Or.inr (le_refl d)), Node.setPtr_same]
          exact Option.some_ne_none _
        · intro i old
          have apart : i ≠ d := by
            rintro rfl
            rcases old with mapped | beyond
            · exact mapped hole
            · omega
          rw [kept i ?_, Node.setPtr_other apart]
          rw [Node.setPtr_other apart]
          rcases old with mapped | beyond
          · exact Or.inl mapped
          · exact Or.inr (by omega)

section Writing
variable {n offset nbytes : Nat} {buf : Bytes} {type : UInt32}

inductive WriteOutcome (g : Geometry) (v : Vol) (n : Nat) (buf : Bytes) (offset nbytes : Nat)
    (type : UInt32) : Bool → Vol → Prop where
  | refused (wrong : (v.node n).type ≠ type ∨ 29 < offset / 4096) :
      WriteOutcome g v n buf offset nbytes type false v
  | noBlock (v1 : Vol) (typed : (v.node n).type = type) (inside : offset / 4096 ≤ 29)
      (filled : Vol.fillHoles g (offset / 4096 + 1) v (v.node n) = (none, v1)) :
      WriteOutcome g v n buf offset nbytes type false v1
  | oneBlock (nd : Node) (v1 : Vol) (typed : (v.node n).type = type) (inside : offset / 4096 ≤ 29)
      (filled : Vol.fillHoles g (offset / 4096 + 1) v (v.node n) = (some nd, v1))
      (short : nbytes ≤ 4096 - offset % 4096) :
      WriteOutcome g v n buf offset nbytes type true
        (((v1.setNode n nd).putBlock (nd.at' (offset / 4096)) (offset % 4096) nbytes buf).grow n nd
          (offset + nbytes))
  | lastBlock (nd : Node) (v1 : Vol) (typed : (v.node n).type = type) (last : offset / 4096 = 29)
      (filled : Vol.fillHoles g (offset / 4096 + 1) v (v.node n) = (some nd, v1))
      (long : 4096 - offset % 4096 < nbytes) :
      WriteOutcome g v n buf offset nbytes type false (v1.setNode n nd)
  | noSecond (nd : Node) (v1 : Vol) (typed : (v.node n).type = type) (inside : offset / 4096 < 29)
      (filled : Vol.fillHoles g (offset / 4096 + 1) v (v.node n) = (some nd, v1))
      (long : 4096 - offset % 4096 < nbytes) (full : v1.hghstAllocDblk = g.numData - 1) :
      WriteOutcome g v n buf offset nbytes type false (v1.setNode n nd)
  | twoBlocks (nd : Node) (v1 v2 : Vol) (typed : (v.node n).type = type)
      (inside : offset / 4096 < 29)
      (filled : Vol.fillHoles g (offset / 4096 + 1) v (v.node n) = (some nd, v1))
      (long : 4096 - offset % 4096 < nbytes) (alloc : Allocates g (v1.setNode n nd) v2)
      (next : v2.hghstAllocDblk = v1.hghstAllocDblk + 1) :
      WriteOutcome g v n buf offset nbytes type true
        (((v2.putBlock (nd.at' (offset / 4096)) (offset % 4096) (4096 - offset % 4096)
          buf).putBlock (g.dataRegionAddr + v2.hghstAllocDblk) 0
            (nbytes - (4096 - offset % 4096)) fun index => buf (4096 - offset % 4096 + index)).grow
              n (nd.setPtr (offset / 4096 + 1) (g.dataRegionAddr + v2.hghstAllocDblk))
              (offset + nbytes))

theorem writeFile_outcome (n : Nat) (buf : Bytes) (offset nbytes : Nat) (type : UInt32)
    (bound : v.hghstAllocDblk < g.numData) :
    WriteOutcome g v n buf offset nbytes type (v.writeFile g n buf offset nbytes type).1
      (v.writeFile g n buf offset nbytes type).2 := by
  unfold Vol.writeFile
  by_cases wrong : (v.node n).type ≠ type ∨ 29 < offset / 4096
  · simp only [wrong, ↓reduceIte]
    exact .refused wrong
  · have typed : (v.node n).type = type := by
      by_contra different
      exact wrong (Or.inl different)
    have inside : offset / 4096 ≤ 29 := by omega
    have spec := fillHoles_spec (offset / 4096 + 1) (by omega) bound (v.node n)
    simp only [wrong, ↓reduceIte]
    rcases filled : Vol.fillHoles g (offset / 4096 + 1) v (v.node n) with ⟨result, v1⟩
    rw [filled] at spec
    cases result with
    | none => exact .noBlock v1 typed inside filled
    | some nd =>
      unfold Vol.writeBlocks
      by_cases short : nbytes ≤ 4096 - offset % 4096
      · simp only [short, ↓reduceIte]
        exact .oneBlock nd v1 typed inside filled short
      · by_cases last : offset / 4096 = 29
        · simp only [short, last, ↓reduceIte]
          exact .lastBlock nd v1 typed last filled (by omega)
        · simp only [short, last, ↓reduceIte]
          have bound1 : (v1.setNode n nd).hghstAllocDblk < g.numData := spec.1.counter_lt
          rcases allocDblk_cases bound1 with ⟨full, none⟩ | ⟨v2, block, alloc, next⟩
          · simp only [none]
            exact .noSecond nd v1 typed (by omega) filled (by omega) full
          · simp only [block]
            exact .twoBlocks nd v1 v2 typed (by omega) filled (by omega) alloc next

structure Writes (g : Geometry) (n : Nat) (v v' : Vol) : Prop extends Advances g v v' where
  boot : v'.boot = v.boot
  inodeBit : v'.inodeBit = v.inodeBit
  highestInode : v'.highestInode = v.highestInode
  others : ∀ m, m ≠ n → v'.node m = v.node m
  fills : Fills g v.hghstAllocDblk v'.hghstAllocDblk (v.node n) (v'.node n)
  mapped : ∀ i, (v.node n).direct i ≠ none → (v'.node n).direct i ≠ none
  size : (v'.node n).size ≤ max (v.node n).size 122880
  block : ∀ b, (∀ i, (v'.node n).direct i ≠ some b) → v'.block b = v.block b

theorem Allocates.writes (alloc : Allocates g v v') (n : Nat) : Writes g n v v' := by
  have node := alloc.node
  refine { alloc.toAdvances with
    boot := alloc.boot, inodeBit := alloc.inodeBit, highestInode := alloc.highestInode
    others := fun m _ => by rw [node], fills := ?_, mapped := ?_, size := ?_
    block := fun b _ => by rw [alloc.block] }
  · rw [node]
    exact Fills.refl _
  · rw [node]
    exact fun i mapped => mapped
  · rw [node]
    exact le_max_left _ _

/-- Storing a node whose pointers were filled, and writing only to its blocks. -/
theorem writes_store {nd : Node} (advances : Advances g v v') (boot : v'.boot = v.boot)
    (inodeBit : v'.inodeBit = v.inodeBit) (highestInode : v'.highestInode = v.highestInode)
    (node : v'.node = Function.update v.node n nd)
    (fills : Fills g v.hghstAllocDblk v'.hghstAllocDblk (v.node n) nd)
    (mapped : ∀ i, (v.node n).direct i ≠ none → nd.direct i ≠ none)
    (size : nd.size ≤ max (v.node n).size 122880)
    (block : ∀ b, (∀ i, nd.direct i ≠ some b) → v'.block b = v.block b) : Writes g n v v' := by
  have here : v'.node n = nd := by simp [node]
  refine ⟨advances, boot, inodeBit, highestInode, ?_, here ▸ fills, here ▸ mapped, here ▸ size,
    here ▸ block⟩
  intro m apart
  simp [node, apart]

theorem putBlock_kept (v : Vol) (b offset count : Nat) (source : Bytes) (other : Nat)
    (apart : other ≠ b) : (v.putBlock b offset count source).block other = v.block other := by
  simp [Vol.putBlock, apart]

/-- The part of `write_file` up to the first `write_inode`. -/
theorem filled_spec {result : Option Node} {v1 : Vol} (bound : v.hghstAllocDblk < g.numData)
    (inside : offset / 4096 ≤ 29)
    (filled : Vol.fillHoles g (offset / 4096 + 1) v (v.node n) = (result, v1)) :
    Allocates g v v1 ∧ ∀ nd, result = some nd →
      Fills g v.hghstAllocDblk v1.hghstAllocDblk (v.node n) nd ∧ nd.size = (v.node n).size ∧
        nd.direct (offset / 4096) = some (nd.at' (offset / 4096)) ∧
        ∀ i, (v.node n).direct i ≠ none ∨ offset / 4096 < i →
          nd.direct i = (v.node n).direct i := by
  have all := fillHoles_spec (offset / 4096 + 1) (by omega) bound (v.node n)
  rw [filled] at all
  refine ⟨all.1, fun nd done => ?_⟩
  obtain ⟨fills, size, last, kept⟩ := all.2.1 nd done
  obtain ⟨b, mapped⟩ := Option.ne_none_iff_exists'.mp (last _ rfl)
  refine ⟨fills, size, ?_, kept⟩
  simp [Node.at', mapped]

/-- Storing the node with its holes filled, where `write_file` can still fail. -/
theorem filled_writes (bound : v.hghstAllocDblk < g.numData) (inside : offset / 4096 ≤ 29)
    {nd : Node} {v1 : Vol}
    (filled : Vol.fillHoles g (offset / 4096 + 1) v (v.node n) = (some nd, v1)) :
    Writes g n v (v1.setNode n nd) := by
  obtain ⟨alloc, found⟩ := filled_spec bound inside filled
  obtain ⟨fills, size, _, kept⟩ := found nd rfl
  refine writes_store ⟨alloc.counter_le, alloc.counter_lt, alloc.dataBit⟩ alloc.boot
    alloc.inodeBit alloc.highestInode ?_ fills (fun i old => ?_) ?_ (fun b _ => congrFun alloc.block b)
  · simp [Vol.setNode, alloc.node]
  · rw [kept i (Or.inl old)]
    exact old
  · rw [size]
    exact le_max_left _ _

theorem WriteOutcome.writes {ok : Bool} (outcome : WriteOutcome g v n buf offset nbytes type ok v')
    (bound : v.hghstAllocDblk < g.numData) (small : nbytes ≤ 4096) : Writes g n v v' := by
  cases outcome with
  | refused wrong => exact (Allocates.refl bound).writes n
  | noBlock v1 typed inside filled => exact (filled_spec bound inside filled).1.writes n
  | oneBlock nd v1 typed inside filled short =>
    obtain ⟨alloc, found⟩ := filled_spec bound inside filled
    obtain ⟨fills, size, mapped, kept⟩ := found nd rfl
    refine writes_store ⟨alloc.counter_le, alloc.counter_lt, alloc.dataBit⟩ alloc.boot
      alloc.inodeBit alloc.highestInode ?_ (fills.resize (max (offset + nbytes) nd.size))
      (fun i old => ?_) ?_ (fun b foreign => ?_)
    · simp [Vol.grow, Vol.setNode, Vol.putBlock, alloc.node]
    · rw [kept i (Or.inl old)]
      exact old
    · simp only [size]
      omega
    · have apart : b ≠ nd.at' (offset / 4096) := fun same => foreign _ (same ▸ mapped)
      simp [Vol.grow, Vol.setNode, Vol.putBlock, apart, alloc.block]
  | lastBlock nd v1 typed last filled long => exact filled_writes bound (by omega) filled
  | noSecond nd v1 typed inside filled long full => exact filled_writes bound (by omega) filled
  | twoBlocks nd v1 v2 typed inside filled long alloc' next =>
    obtain ⟨alloc, found⟩ := filled_spec bound (by omega) filled
    obtain ⟨fills, size, mapped, kept⟩ := found nd rfl
    have advances : Advances g v v2 :=
      alloc.toAdvances.trans ⟨alloc'.counter_le, alloc'.counter_lt, alloc'.dataBit⟩
    -- the second block comes after those that filled the holes
    have second : Fills g v1.hghstAllocDblk v2.hghstAllocDblk nd
        (nd.setPtr (offset / 4096 + 1) (g.dataRegionAddr + v2.hghstAllocDblk)) := by
      rw [next]
      exact Fills.setPtr nd _ (by omega)
    refine writes_store ⟨advances.counter_le, advances.counter_lt, advances.dataBit⟩ ?_ ?_ ?_ ?_
      ((fills.trans second alloc.counter_le (by omega)).resize
        (max (offset + nbytes) nd.size)) (fun i old => ?_) ?_ (fun b foreign => ?_)
    · exact alloc'.boot.trans alloc.boot
    · exact alloc'.inodeBit.trans alloc.inodeBit
    · exact alloc'.highestInode.trans alloc.highestInode
    · simp [Vol.grow, Vol.setNode, Vol.putBlock, alloc'.node, alloc.node]
    · by_cases new : i = offset / 4096 + 1
      · simp [new]
      · simp only [Node.setPtr_other new]
        rw [kept i (Or.inl old)]
        exact old
    · simp only [size]
      omega
    · have apart : b ≠ nd.at' (offset / 4096) := by
        rintro rfl
        apply foreign (offset / 4096)
        simp only [Node.setPtr_other (show offset / 4096 ≠ offset / 4096 + 1 by omega)]
        exact mapped
      have apart' : b ≠ g.dataRegionAddr + v2.hghstAllocDblk := by
        rintro rfl
        apply foreign (offset / 4096 + 1)
        simp
      simp [Vol.grow, Vol.setNode, Vol.putBlock, apart, apart', alloc'.block, alloc.block]
end Writing

end OsProjects.VolumeSteps
