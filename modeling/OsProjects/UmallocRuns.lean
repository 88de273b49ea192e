import OsProjects.Runs
import OsProjects.Umalloc

/-!
Whole runs of `malloc` and `free` (`umalloc.c`), with the program's own stores and
calls of `sbrk` in between. A program frees what it has been given and writes to
its blocks or outside the allocator's memory; the kernel may refuse to grow it at
any time.
-/

namespace OsProjects.Umalloc

open Runs ByteStore Rings Function List

section Growth
variable {base : Nat} {h : Heap} {blocks live : List Block} {nunits : Nat}

def Granted (h : Heap) (nunits : Nat) (ok : Bool) : Prop :=
  ok = true ∧ h.brk + 8 * requested nunits < 2147483648

structure Grown (base : Nat) (h h' : Heap) (blocks live : List Block) (nunits : Nat)
    (blocks' : List Block) : Prop where
  sound : Sound base h' blocks' live
  brk : h.brk ≤ h'.brk
  covers : ∀ place, (∃ c ∈ blocks', c.Has place) ↔
    (∃ c ∈ blocks, c.Has place) ∨ (h.brk ≤ place ∧ place < h'.brk)
  fits : ∃ c ∈ blocks', nunits ≤ c.units
  spares : ∀ place, (place < base ∨ base + 8 ≤ place) → (¬ ∃ c ∈ blocks, c.Has place) →
    place < h.brk → h'.mem place = h.mem place

theorem requested_bounds (small : 8 * nunits < 2147483648) :
    nunits ≤ requested nunits ∧ 1 ≤ requested nunits ∧ 8 * requested nunits < 2147483648 := by
  unfold requested
  split <;> omega

theorem Sound.extend (sound : Sound base h blocks live) {units : Nat} (positive : 1 ≤ units)
    (room : h.brk + 8 * units < 2147483648) :
    Sound base { h with brk := h.brk + 8 * units, mem := setSize h.mem h.brk units } blocks
      (⟨h.brk, units⟩ :: live) := by
  have touched : Touches h.mem (setSize h.mem h.brk units) h.brk := touches_setSize
  have brk := sound.brk
  have header : ∀ d, d ∈ blocks ∨ d ∈ live → d.addr + 8 ≤ h.brk ∧ d.stop ≤ h.brk := by
    intro d member
    obtain ⟨_, high, units, _⟩ := sound.placed d member
    unfold Block.stop at high ⊢
    omega
  have kept : ∀ d, d ∈ blocks ∨ d ∈ live → Placed base
      { h with brk := h.brk + 8 * units, mem := setSize h.mem h.brk units } d := by
    intro d member
    obtain ⟨low, high, units', sized⟩ := sound.placed d member
    exact ⟨low, Nat.le_add_right_of_le high, units',
      (touched.size (Or.inl (header d member).1)).trans sized⟩
  refine {
    brk := ⟨by simp only; omega, room⟩, placed := ?_, sorted := sound.sorted
    liveApart := ?_, apart := ?_, ring := ?_, empty := ?_, freep := sound.freep }
  · rintro d (member | member)
    · exact kept d (Or.inl member)
    · rcases mem_cons.mp member with rfl | used
      · refine ⟨brk.1, Nat.le_refl _, positive, size_setSize (by omega)⟩
      · exact kept d (Or.inr used)
  · refine pairwise_cons.mpr ⟨fun d used => Or.inr (header d (Or.inr used)).2, sound.liveApart⟩
  · intro d member c used
    rcases mem_cons.mp used with rfl | used
    · exact Or.inl (header d (Or.inl member)).2
    · exact sound.apart d member c used
  · refine sound.ring.congr fun node member => touched.ptr (Or.inl ?_)
    rcases mem_cons.mp member with rfl | listed
    · exact brk.1
    · obtain ⟨d, inside, rfl⟩ := mem_map.mp listed
      exact (header d (Or.inl inside)).1
  · exact (touched.size (Or.inl brk.1)).trans sound.empty

theorem morecore_spec (sound : Sound base h blocks live) (small : 8 * nunits < 2147483648)
    (ok : Bool) :
    (¬ Granted h nunits ok ∧ morecore h nunits ok = some (h, 0)) ∨
      ∃ h' blocks', morecore h nunits ok = some (h', h'.freep) ∧
        Grown base h h' blocks live nunits blocks' := by
  obtain ⟨enough, positive, fits⟩ := requested_bounds small
  have brk := sound.brk
  have bytes : requested nunits * 8 % 4294967296 = 8 * requested nunits := by omega
  have asks : sbrk h (8 * requested nunits) ok =
      if ok = true ∧ h.brk + 8 * requested nunits < 2147483648 then
        some (h.brk, { h with brk := h.brk + 8 * requested nunits }) else none := by
    rw [sbrk, if_neg (by omega), if_pos fits]
  unfold morecore
  rw [bytes, asks]
  by_cases granted : ok = true ∧ h.brk + 8 * requested nunits < 2147483648
  · right
    have extended := sound.extend positive granted.2
    obtain ⟨h', blocks', freed, result⟩ := free_spec extended
    rw [if_pos granted]
    simp only [plus_eq (show h.brk + 8 * 1 < 4294967296 by omega)]
    refine ⟨h', blocks', ?_, result.sound, ?_, fun place => ?_, ?_, fun place low away below => ?_⟩
    · simp only [Nat.mul_one, freed, Option.map_some]
    · rw [result.brk]
      exact Nat.le_add_right _ _
    · rw [result.covers place, exists_mem_cons_iff, result.brk]
      exact or_comm
    · obtain ⟨c, member, holds⟩ := result.holds
      exact ⟨c, member, Nat.le_trans enough holds⟩
    · rw [result.spares place low fun c member => ?_]
      · exact touches_setSize place (Or.inl below)
      · rcases mem_cons.mp member with rfl | inside
        · exact Or.inl below
        · have misses : ¬ c.Has place := fun here => away ⟨c, inside, here⟩
          have units := (sound.placed c (Or.inl inside)).units
          unfold Block.Has Block.stop at misses
          omega
  · left
    rw [if_neg granted]
    exact ⟨granted, rfl⟩

end Growth

section Searching
variable {base : Nat} {h : Heap} {blocks live : List Block} {nunits : Nat}

/-- One turn along the free list: it ends at a node in front of a block that is
large enough, or back at `freep`, where `morecore` is called. -/
theorem mallocLoop_turn {ok : Bool} {prevp fuel : Nat} {inner : List Nat}
    (path : Path (ptr h.mem) prevp inner h.freep) (once : h.freep ∉ inner)
    (enough : inner.length < fuel) :
    (∃ q ∈ prevp :: inner, nunits ≤ size h.mem (ptr h.mem q) ∧
        mallocLoop ok nunits fuel h prevp (ptr h.mem prevp) =
          some (carve h q (ptr h.mem q) nunits)) ∨
      ((∀ q ∈ inner ++ [h.freep], size h.mem q < nunits) ∧
        ∃ fuel', fuel ≤ fuel' + inner.length + 1 ∧ ∀ h' p, morecore h nunits ok = some (h', p) →
          mallocLoop ok nunits fuel h prevp (ptr h.mem prevp) =
            if p = 0 then some (h', 0) else mallocLoop ok nunits fuel' h' p (ptr h'.mem p)) := by
  induction inner generalizing prevp fuel with
  | nil =>
    obtain ⟨fuel, rfl⟩ := Nat.exists_eq_succ_of_ne_zero (Nat.ne_of_gt enough)
    have back : ptr h.mem prevp = h.freep := path
    by_cases fits : nunits ≤ size h.mem (ptr h.mem prevp)
    · refine Or.inl ⟨prevp, mem_cons_self, fits, ?_⟩
      rw [mallocLoop, if_pos fits]
    · refine Or.inr ⟨?_, fuel, by simp, fun h' p grown => ?_⟩
      · intro q member
        rw [nil_append, mem_singleton] at member
        rw [member, ← back]
        omega
      · simp only [mallocLoop, if_neg fits, if_pos back, grown]
  | cons second inner ih =>
    obtain ⟨fuel, rfl⟩ := Nat.exists_eq_succ_of_ne_zero (Nat.ne_of_gt (Nat.zero_lt_of_lt enough))
    obtain ⟨next, path⟩ := path
    rw [mem_cons, not_or] at once
    by_cases fits : nunits ≤ size h.mem (ptr h.mem prevp)
    · refine Or.inl ⟨prevp, mem_cons_self, fits, ?_⟩
      rw [mallocLoop, if_pos fits]
    · have onward : mallocLoop ok nunits (fuel + 1) h prevp (ptr h.mem prevp) =
          mallocLoop ok nunits fuel h second (ptr h.mem second) := by
        rw [mallocLoop, if_neg fits, next, if_neg fun same => once.1 same.symm]
      rw [onward]
      rcases ih path once.2 (Nat.lt_of_succ_lt_succ enough) with
        ⟨q, member, found, result⟩ | ⟨none, fuel', left, result⟩
      · exact Or.inl ⟨q, mem_cons_of_mem _ member, found, result⟩
      · refine Or.inr ⟨?_, fuel', ?_, result⟩
        · intro q member
          rcases mem_cons.mp member with rfl | later
          · rw [← next]
            omega
          · exact none q later
        · rw [length_cons]
          omega

theorem Sound.turn (sound : Sound base h blocks live) :
    ∃ inner, Path (ptr h.mem) h.freep inner h.freep ∧ h.freep ∉ inner ∧
      inner.length < rounds ∧ ∀ node, node ∈ nodes base blocks ↔ node = h.freep ∨ node ∈ inner := by
  obtain ⟨front, back, split⟩ := append_of_mem sound.freep
  have ring := sound.ring
  have distinct := sound.nodup
  have short := sound.length_lt
  rw [split] at ring distinct short
  have turned : Path (ptr h.mem) h.freep (back ++ front) h.freep := ring.rotate
  refine ⟨back ++ front, turned, ?_, ?_, fun node => ?_⟩
  · have apart := nodup_append.mp distinct
    intro inside
    rcases mem_append.mp inside with after | before
    · exact (nodup_cons.mp apart.2.1).1 after
    · exact apart.2.2 _ before _ mem_cons_self rfl
  · simp only [length_append, length_cons] at short ⊢
    omega
  · rw [split]
    simp only [mem_append, mem_cons]
    constructor
    · rintro (here | here | here)
      · exact Or.inr (Or.inr here)
      · exact Or.inl here
      · exact Or.inr (Or.inl here)
    · rintro (here | here | here)
      · exact Or.inr (Or.inl here)
      · exact Or.inr (Or.inr here)
      · exact Or.inl here

structure Served (base : Nat) (h h' : Heap) (blocks live : List Block) (b : Block)
    (blocks' : List Block) : Prop where
  sound : Sound base h' blocks' (b :: live)
  brk : h.brk ≤ h'.brk
  covers : ∀ place, (∃ c ∈ b :: blocks', c.Has place) ↔
    (∃ c ∈ blocks, c.Has place) ∨ (h.brk ≤ place ∧ place < h'.brk)
  spares : ∀ place, (place < base ∨ base + 8 ≤ place) → (¬ ∃ c ∈ blocks, c.Has place) →
    place < h.brk → h'.mem place = h.mem place

theorem mallocLoop_spec (sound : Sound base h blocks live) (low : 0 < base) (positive : 1 ≤ nunits)
    (small : 8 * nunits < 2147483648) (ok : Bool) :
    (¬ Granted h nunits ok ∧
        mallocLoop ok nunits (2 * rounds) h h.freep (ptr h.mem h.freep) = some (h, 0)) ∨
      ∃ h' b blocks',
        mallocLoop ok nunits (2 * rounds) h h.freep (ptr h.mem h.freep) = some (h', b.addr + 8) ∧
        b.units = nunits ∧ Served base h h' blocks live b blocks' := by
  obtain ⟨inner, path, once, short, spells⟩ := sound.turn
  have fuel : inner.length < 2 * rounds := by omega
  rcases @mallocLoop_turn h nunits ok _ _ _ path once fuel with
    ⟨q, member, fits, result⟩ | ⟨_, fuel', left, result⟩
  · right
    have node : q ∈ nodes base blocks := (spells q).mpr (mem_cons.mp member)
    obtain ⟨h', b, blocks', carved, units, taken⟩ := carve_spec sound node positive fits
    refine ⟨h', b, blocks', by rw [result, carved], units, taken.sound, Nat.le_of_eq taken.brk.symm,
      fun place => ?_, fun place low away _ => taken.spares place low away⟩
    rw [taken.covers, taken.brk]
    exact (or_iff_left (by omega)).symm
  · rcases morecore_spec sound small ok with ⟨refused, grown⟩ | ⟨h', blocks', grown, more⟩
    · left
      rw [result h 0 grown]
      exact ⟨refused, if_pos rfl⟩
    · right
      rw [result h' h'.freep grown]
      have nonzero : h'.freep ≠ 0 := by
        intro zero
        rcases mem_cons.mp more.sound.freep with here | listed
        · omega
        · obtain ⟨d, inside, same⟩ := mem_map.mp listed
          have := (more.sound.placed d (Or.inl inside)).low
          omega
      rw [if_neg nonzero]
      obtain ⟨inner', path', once', short', spells'⟩ := more.sound.turn
      have fuel'' : inner'.length < fuel' := by omega
      rcases @mallocLoop_turn h' nunits ok _ _ _ path' once' fuel'' with
        ⟨q, member, fits, found⟩ | ⟨none, _⟩
      · have node : q ∈ nodes base blocks' := (spells' q).mpr (mem_cons.mp member)
        obtain ⟨h'', b, blocks'', carved, units, taken⟩ := carve_spec more.sound node positive fits
        refine ⟨h'', b, blocks'', by rw [found, carved], units, taken.sound, taken.brk ▸ more.brk,
          fun place => ?_, fun place low away below => ?_⟩
        · rw [taken.covers, more.covers, taken.brk]
        · refine (taken.spares place low ?_).trans (more.spares place low away below)
          rw [more.covers]
          exact fun either => either.elim away fun new => by omega
      · -- the grown list has a block that is large enough
        obtain ⟨c, inside, fits⟩ := more.fits
        have node : c.addr ∈ nodes base blocks' := mem_cons_of_mem _ (mem_map_of_mem inside)
        have sized := (more.sound.placed c (Or.inl inside)).size
        have less := none c.addr (by
          rcases (spells' c.addr).mp node with here | here
          · exact mem_append_right _ (mem_singleton.mpr here)
          · exact mem_append_left _ here)
        omega

end Searching

variable {blocks live : List Block}

section Runs
variable {base : Nat}

/-- A program: its heap, the blocks it has been given and not freed, and the
stretches of memory that `morecore` got from the system. -/
structure Program where
  heap : Heap
  live : List Block
  arena : List (Nat × Nat)

inductive Event where
  /-- with the kernel's answer to `sbrk` -/
  | malloc (nbytes : UInt32) (ok : Bool)
  | free (ap : Nat)
  | store (addr : Nat) (byte : UInt8)
  | sbrk (n : Nat) (ok : Bool)

namespace Program

def malloc (base : Nat) (s : Program) (nbytes : UInt32) (ok : Bool) : Option Program :=
  (Umalloc.malloc base s.heap nbytes ok).map fun (h, ap) =>
    { heap := h
      live := if ap = 0 then s.live else ⟨header ap, size h.mem (header ap)⟩ :: s.live
      arena := (s.heap.brk, h.brk) :: s.arena }

def free (s : Program) (ap : Nat) : Option Program :=
  (Umalloc.free s.heap ap).map fun h =>
    { s with heap := h, live := s.live.eraseP fun b => b.addr + 8 = ap }

def store (s : Program) (addr : Nat) (byte : UInt8) : Program :=
  { s with heap := { s.heap with mem := update s.heap.mem addr byte } }

def sbrk (s : Program) (n : Nat) (ok : Bool) : Program :=
  match Umalloc.sbrk s.heap n ok with
  | some (_, h) => { s with heap := h }
  | none => s

end Program

def step (base : Nat) : Option Program → Event → Option Program
  | none, _ => none
  | some s, .malloc nbytes ok => s.malloc base nbytes ok
  | some s, .free ap => s.free ap
  | some s, .store addr byte => some (s.store addr byte)
  | some s, .sbrk n ok => some (s.sbrk n ok)

def InArena (arena : List (Nat × Nat)) (place : Nat) : Prop :=
  ∃ part ∈ arena, part.1 ≤ place ∧ place < part.2

def Block.Payload (b : Block) (place : Nat) : Prop := b.addr + 8 ≤ place ∧ place < b.stop

instance (arena : List (Nat × Nat)) (place : Nat) : Decidable (InArena arena place) :=
  inferInstanceAs (Decidable (∃ part ∈ arena, _))

instance (b : Block) (place : Nat) : Decidable (b.Payload place) :=
  inferInstanceAs (Decidable (_ ∧ _))

/-- Requests are below 2^31, a block is freed once, the program writes to its
blocks or outside the allocator's memory, and does not shrink. -/
def Allows (base : Nat) : Option Program → Event → Prop
  | none, _ => True
  | some _, .malloc nbytes _ => nbytes.toNat + 15 < 2147483648
  | some s, .free ap => ∃ b ∈ s.live, ap = b.addr + 8
  | some s, .store addr _ => (∃ b ∈ s.live, b.Payload addr) ∨
      (¬ InArena s.arena addr ∧ (addr < base ∨ base + 8 ≤ addr))
  | some _, .sbrk n _ => n < 2147483648

instance (base : Nat) : (program : Option Program) → (event : Event) →
    Decidable (Allows base program event)
  | none, _ => isTrue trivial
  | some _, .malloc _ _ => inferInstanceAs (Decidable (_ < _))
  | some _, .free _ => inferInstanceAs (Decidable (∃ b ∈ _, _))
  | some _, .store _ _ => inferInstanceAs (Decidable ((∃ b ∈ _, _) ∨ _))
  | some _, .sbrk _ _ => inferInstanceAs (Decidable (_ < _))

def Ready (base : Nat) (h : Heap) (blocks live : List Block) : Prop :=
  (h.freep = 0 ∧ blocks = [] ∧ live = [] ∧ base + 8 ≤ h.brk ∧ h.brk < 2147483648) ∨
    (h.freep ≠ 0 ∧ Sound base h blocks live)

structure Tidy (base : Nat) (s : Program) (blocks : List Block) : Prop where
  ready : Ready base s.heap blocks s.live
  covers : ∀ place, (∃ c ∈ blocks ++ s.live, c.Has place) ↔ InArena s.arena place

theorem unitsFor_eq {nbytes : UInt32} (small : nbytes.toNat + 15 < 2147483648) :
    unitsFor nbytes = (nbytes.toNat + 7) / 8 + 1 := by
  have sum : (nbytes + 7).toNat = nbytes.toNat + 7 := by
    rw [UInt32.toNat_add]
    exact Nat.mod_eq_of_lt (by simp; omega)
  rw [unitsFor, sum]

theorem Ready.init {h : Heap} (ready : Ready base h blocks live) :
    Sound base (init base h) blocks live ∧ (init base h).brk = h.brk ∧
      ∀ place, (place < base ∨ base + 8 ≤ place) → (init base h).mem place = h.mem place := by
  rcases ready with ⟨zero, rfl, rfl, low, high⟩ | ⟨nonzero, sound⟩
  · have small : base < 4294967296 := by omega
    rw [Umalloc.init, if_pos zero]
    refine ⟨⟨⟨low, high⟩, by simp, by simp, by simp, by simp, ?_, size_setSize (by omega),
      mem_singleton_self base⟩, rfl, touches_setPtr.trans touches_setSize⟩
    change ptr (setSize (setPtr h.mem base base) base 0) base = base
    rw [ptr_setSize, ptr_setPtr small]
  · rw [Umalloc.init, if_neg nonzero]
    exact ⟨sound, rfl, fun _ _ => rfl⟩

/-- Every node of the free list has an address other than 0. -/
theorem Sound.ready {h : Heap} (sound : Sound base h blocks live)
    (low : 0 < base) : Ready base h blocks live := by
  refine Or.inr ⟨fun zero => ?_, sound⟩
  rcases mem_cons.mp sound.freep with here | listed
  · omega
  · obtain ⟨d, inside, same⟩ := mem_map.mp listed
    have := (sound.placed d (Or.inl inside)).low
    omega

theorem malloc_spec {h : Heap} (ready : Ready base h blocks live)
    (low : 0 < base) {nbytes : UInt32} (small : nbytes.toNat + 15 < 2147483648) (ok : Bool) :
    (¬ Granted h (unitsFor nbytes) ok ∧ malloc base h nbytes ok = some (init base h, 0)) ∨
      ∃ h' b blocks', malloc base h nbytes ok = some (h', b.addr + 8) ∧
        b.units = unitsFor nbytes ∧ Served base h h' blocks live b blocks' := by
  obtain ⟨sound, brk, same⟩ := ready.init
  have units := unitsFor_eq small
  rcases mallocLoop_spec sound low (show 1 ≤ unitsFor nbytes by omega)
    (show 8 * unitsFor nbytes < 2147483648 by omega) ok with
    ⟨refused, result⟩ | ⟨h', b, blocks', result, size, served⟩
  · left
    refine ⟨?_, result⟩
    rw [Granted, brk] at refused
    exact refused
  · right
    refine ⟨h', b, blocks', result, size, served.sound, brk ▸ served.brk, ?_, ?_⟩
    · rw [← brk]
      exact served.covers
    · intro place low away below
      exact (served.spares place low away (brk.symm ▸ below)).trans (same place low)

theorem Sound.perm {h : Heap} {blocks live live' : List Block} (sound : Sound base h blocks live)
    (perm : live.Perm live') : Sound base h blocks live' where
  brk := sound.brk
  placed b member := sound.placed b (member.imp_right perm.mem_iff.mpr)
  sorted := sound.sorted
  liveApart := sound.liveApart.perm perm Apart.symm
  apart b member c used := sound.apart b member c (perm.mem_iff.mpr used)
  ring := sound.ring
  empty := sound.empty
  freep := sound.freep

theorem Sound.store {h : Heap} (sound : Sound base h blocks live)
    {addr : Nat} {byte : UInt8} (low : addr < base ∨ base + 8 ≤ addr)
    (away : ∀ b, b ∈ blocks ∨ b ∈ live → addr < b.addr ∨ b.addr + 8 ≤ addr) :
    Sound base { h with mem := update h.mem addr byte } blocks live := by
  have same : ∀ p, addr < p ∨ p + 8 ≤ addr → ptr (update h.mem addr byte) p = ptr h.mem p ∧
        size (update h.mem addr byte) p = size h.mem p := by
    intro p apart
    constructor
    · unfold ptr
      rw [wordAt_congr _ h.mem p p fun index small => update_of_ne (by omega) _ _]
    · unfold size
      rw [wordAt_congr _ h.mem (p + 4) (p + 4) fun index small =>
        update_of_ne (by omega) _ _]
  refine { sound with placed := fun b member => ?_, ring := ?_, empty := ?_ }
  · obtain ⟨low, high, units, sized⟩ := sound.placed b member
    exact ⟨low, high, units, (same b.addr (away b member)).2.trans sized⟩
  · refine sound.ring.congr fun node member => ?_
    rcases mem_cons.mp member with rfl | listed
    · exact (same node low).1
    · obtain ⟨d, inside, rfl⟩ := mem_map.mp listed
      exact (same d.addr (away d (Or.inl inside))).1
  · exact (same base low).2.trans sound.empty

variable {s : Program} {blocks : List Block}

theorem Block.Payload.has {b : Block} {place : Nat} (inside : b.Payload place) : b.Has place := by
  unfold Block.Payload at inside
  unfold Block.Has
  omega

theorem Placed.misses {h : Heap} {c : Block} (placed : Placed base h c) {place : Nat}
    (outside : ¬ c.Has place) : place < c.addr ∨ c.addr + 8 ≤ place := by
  have units := placed.units
  unfold Block.Has Block.stop at outside
  omega

section
variable (tidy : Tidy base s blocks)
include tidy

theorem Tidy.apart :
    s.live.Pairwise Apart ∧ (∀ b ∈ blocks, ∀ c ∈ s.live, Apart b c) ∧
      ∀ b, b ∈ blocks ∨ b ∈ s.live → base + 8 ≤ b.addr ∧ b.stop ≤ s.heap.brk ∧ 1 ≤ b.units := by
  rcases tidy.ready with ⟨_, rfl, none, _⟩ | ⟨_, sound⟩
  · rw [none]
    simp
  · exact ⟨sound.liveApart, sound.apart, fun b member =>
      have placed := sound.placed b member
      ⟨placed.low, placed.high, placed.units⟩⟩

theorem Tidy.used {b : Block} (member : b ∈ s.live) {place : Nat}
    (inside : b.Has place) : (¬ ∃ c ∈ blocks, c.Has place) ∧ (place < base ∨ base + 8 ≤ place) ∧
      place < s.heap.brk := by
  obtain ⟨_, apart, placed⟩ := tidy.apart
  obtain ⟨low, high, _⟩ := placed b (Or.inr member)
  unfold Block.Has at inside
  refine ⟨?_, by omega, by omega⟩
  rintro ⟨c, free, here⟩
  have away := apart c free b member
  unfold Apart at away
  unfold Block.Has at here
  omega

/-- The result of `malloc`: no block, because the kernel refused, or a new one. -/
theorem Tidy.malloc (low : 0 < base) {nbytes : UInt32}
    (small : nbytes.toNat + 15 < 2147483648) (ok : Bool) :
    ∃ s' blocks', s.malloc base nbytes ok = some s' ∧ Tidy base s' blocks' ∧
      ((s'.live = s.live ∧ ¬ Granted s.heap (unitsFor nbytes) ok) ∨
        ∃ b, s'.live = b :: s.live ∧ b.units = unitsFor nbytes) ∧
      ∀ b ∈ s.live, ∀ place, b.Payload place → s'.heap.mem place = s.heap.mem place := by
  rcases malloc_spec tidy.ready low small ok with
    ⟨refused, result⟩ | ⟨h', b, blocks', result, units, served⟩
  · obtain ⟨sound, brk, same⟩ := tidy.ready.init
    refine ⟨⟨init base s.heap, s.live, (s.heap.brk, (init base s.heap).brk) :: s.arena⟩, blocks, ?_,
      ⟨sound.ready low, fun place => ?_⟩, Or.inl ⟨rfl, refused⟩, fun b member place inside => ?_⟩
    · simp only [Program.malloc, result, Option.map_some, if_true]
    · have none : ¬ (s.heap.brk ≤ place ∧ place < s.heap.brk) := by omega
      simp only [InArena, exists_mem_cons_iff, brk, none, false_or]
      exact tidy.covers place
    · exact same place (tidy.used member inside.has).2.1
  · have placed := served.sound.placed b (Or.inr mem_cons_self)
    have brk := served.sound.brk
    have high := placed.high
    have positive := placed.units
    unfold Block.stop at high
    have head : header (b.addr + 8) = b.addr := header_eq (by omega)
    have block : (⟨header (b.addr + 8), size h'.mem (header (b.addr + 8))⟩ : Block) = b := by
      rw [head, placed.size]
    have nonzero : b.addr + 8 ≠ 0 := by omega
    refine ⟨⟨h', b :: s.live, (s.heap.brk, h'.brk) :: s.arena⟩, blocks', ?_,
      ⟨served.sound.ready low, fun place => ?_⟩, Or.inr ⟨b, rfl, units⟩,
      fun c member place inside => ?_⟩
    · simp only [Program.malloc, result, Option.map_some, if_neg nonzero, block]
    · have covers := served.covers place
      have before := tidy.covers place
      simp only [InArena, has_append, exists_mem_cons_iff] at covers before ⊢
      rw [or_left_comm, ← or_assoc, covers, or_comm (a := ∃ c ∈ blocks, c.Has place), or_assoc, before]
    · obtain ⟨away, low, below⟩ := tidy.used member inside.has
      exact served.spares place low away below

/-- The other blocks in use keep their bytes when one is freed. -/
theorem Tidy.free (low : 0 < base) {b : Block} (member : b ∈ s.live) :
    ∃ s' blocks', s.free (b.addr + 8) = some s' ∧ Tidy base s' blocks' ∧
      (b :: s'.live).Perm s.live ∧
      ∀ c ∈ s'.live, ∀ place, c.Payload place → s'.heap.mem place = s.heap.mem place := by
  rcases tidy.ready with ⟨_, _, none, _⟩ | ⟨_, sound⟩
  · rw [none] at member
    exact absurd member not_mem_nil
  have placed := sound.placed b (Or.inr member)
  have positive := placed.units
  -- two blocks in use do not start at the same address
  have only : ∀ c ∈ s.live, c.addr = b.addr → c = b := by
    intro c used same
    by_contra other
    have apart := sound.liveApart.forall used member other
    have units := (sound.placed c (Or.inr used)).units
    unfold Apart Block.stop at apart
    omega
  obtain ⟨c, front, back, _, same, split, erased⟩ :=
    exists_of_eraseP (p := fun c : Block => decide (c.addr + 8 = b.addr + 8)) member (by simp)
  have here : c = b := only c (split ▸ mem_append_right _ mem_cons_self) (by simpa using same)
  subst here
  have perm : (c :: (front ++ back)).Perm s.live := split ▸ perm_middle.symm
  obtain ⟨h', blocks', freed, result⟩ := free_spec (sound.perm perm.symm)
  refine ⟨⟨h', front ++ back, s.arena⟩, blocks', ?_, ⟨result.sound.ready low, fun place => ?_⟩, perm,
    fun d used place inside => ?_⟩
  · simp only [Program.free, freed, Option.map_some, erased]
  · rw [← tidy.covers place, has_append, has_append, result.covers, split]
    simp only [has_append, exists_mem_cons_iff]
    exact or_assoc.trans (or_left_comm.trans (or_congr_right or_left_comm))
  · have inLive : d ∈ s.live := perm.mem_iff.mp (mem_cons_of_mem _ used)
    obtain ⟨away, outside, _⟩ := tidy.used inLive inside.has
    refine result.spares place outside fun e free => ?_
    rcases mem_cons.mp free with rfl | listed
    · have apart := (pairwise_cons.mp (sound.liveApart.perm perm.symm Apart.symm)).1 d used
      unfold Apart Block.stop at apart
      unfold Block.Payload Block.stop at inside
      omega
    · exact (sound.placed e (Or.inl listed)).misses fun here => away ⟨e, listed, here⟩

theorem Tidy.store {addr : Nat} (byte : UInt8) (allowed : (∃ b ∈ s.live, b.Payload addr) ∨
      (¬ InArena s.arena addr ∧ (addr < base ∨ base + 8 ≤ addr))) :
    Tidy base (s.store addr byte) blocks := by
  refine ⟨?_, tidy.covers⟩
  rcases tidy.ready with initial | ⟨nonzero, sound⟩
  · exact Or.inl initial
  refine Or.inr ⟨nonzero, ?_⟩
  rcases allowed with ⟨b, member, inside⟩ | ⟨outside, low⟩
  · obtain ⟨away, low, _⟩ := tidy.used member inside.has
    refine sound.store low fun c here => ?_
    have placed := sound.placed c here
    rcases here with free | used
    · exact placed.misses fun there => away ⟨c, free, there⟩
    · by_cases same : c = b
      · exact Or.inr (same ▸ inside.1)
      · have units := placed.units
        have apart := sound.liveApart.forall used member same
        unfold Apart Block.stop at apart
        unfold Block.Payload Block.stop at inside
        omega
  · exact sound.store low fun c here => (sound.placed c here).misses fun there =>
      outside ((tidy.covers addr).mp ⟨c, mem_append.mpr here, there⟩)

theorem Tidy.sbrk {n : Nat} (grows : n < 2147483648) (ok : Bool) :
    Tidy base (s.sbrk n ok) blocks ∧ (s.sbrk n ok).live = s.live ∧
      (s.sbrk n ok).heap.mem = s.heap.mem := by
  have larger : ∀ brk, s.heap.brk ≤ brk → brk < 2147483648 →
      Tidy base { s with heap := { s.heap with brk := brk } } blocks := by
    intro brk more bound
    refine ⟨?_, tidy.covers⟩
    rcases tidy.ready with ⟨zero, none, none', low, _⟩ | ⟨nonzero, sound⟩
    · exact Or.inl ⟨zero, none, none', Nat.le_trans low more, bound⟩
    · refine Or.inr ⟨nonzero, ⟨Nat.le_trans sound.brk.1 more, bound⟩, fun b member => ?_, sound.sorted,
        sound.liveApart, sound.apart, sound.ring, sound.empty, sound.freep⟩
      obtain ⟨low, high, units, sized⟩ := sound.placed b member
      exact ⟨low, Nat.le_trans high more, units, sized⟩
  have result : s.sbrk n ok = s ∨ ∃ brk, s.heap.brk ≤ brk ∧ brk < 2147483648 ∧
      s.sbrk n ok = { s with heap := { s.heap with brk := brk } } := by
    unfold Program.sbrk Umalloc.sbrk
    by_cases zero : n = 0
    · exact Or.inl (by simp only [if_pos zero])
    · by_cases granted : ok = true ∧ s.heap.brk + n < 2147483648
      · refine Or.inr ⟨_, Nat.le_add_right _ n, granted.2, ?_⟩
        simp only [if_neg zero, if_pos grows, if_pos granted]
      · exact Or.inl (by simp only [if_neg zero, if_pos grows, if_neg granted])
  rcases result with same | ⟨brk, more, bound, same⟩
  · rw [same]
    exact ⟨tidy, rfl, rfl⟩
  · rw [same]
    exact ⟨larger brk more bound, rfl, rfl⟩

theorem Tidy.step (low : 0 < base) {event : Event} (allowed : Allows base (some s) event) :
    ∃ s' blocks', Umalloc.step base (some s) event = some s' ∧ Tidy base s' blocks' := by
  cases event with
  | malloc nbytes ok =>
    obtain ⟨s', blocks', result, tidy', _⟩ := tidy.malloc low allowed ok
    exact ⟨s', blocks', result, tidy'⟩
  | free ap =>
    obtain ⟨b, member, rfl⟩ := allowed
    obtain ⟨s', blocks', result, tidy', _⟩ := tidy.free low member
    exact ⟨s', blocks', result, tidy'⟩
  | store addr byte => exact ⟨_, blocks, rfl, tidy.store byte allowed⟩
  | sbrk n ok => exact ⟨_, blocks, rfl, (tidy.sbrk allowed ok).1⟩
end

def fresh (mem : Bytes) (brk : Nat) : Program := ⟨⟨mem, 0, brk⟩, [], []⟩

theorem tidy_run {mem : Bytes} {brk : Nat} {events : List Event} (low : 0 < base)
    (room : base + 8 ≤ brk) (high : brk < 2147483648)
    (allowed : Allowed (Umalloc.step base) (Allows base) (some (fresh mem brk)) events) :
    ∃ s blocks, run (Umalloc.step base) (some (fresh mem brk)) events = some s ∧
      Tidy base s blocks := by
  have initial : Tidy base (fresh mem brk) [] :=
    ⟨Or.inl ⟨rfl, rfl, rfl, room, high⟩, fun place => by simp [fresh, InArena]⟩
  refine invariant (fun state => ∃ s blocks, state = some s ∧ Tidy base s blocks)
    ⟨_, [], rfl, initial⟩ ?_ allowed
  rintro state event ⟨s, blocks, rfl, tidy⟩ allowed
  exact tidy.step low allowed

def FreeList (base : Nat) (h : Heap) (blocks : List Block) : Prop :=
  h.freep ≠ 0 → Rings.Ring (ptr h.mem) (nodes base blocks) ∧
    ∀ b ∈ blocks, size h.mem b.addr = b.units

theorem Tidy.freeList (tidy : Tidy base s blocks) : FreeList base s.heap blocks := by
  intro nonzero
  rcases tidy.ready with ⟨zero, _⟩ | ⟨_, sound⟩
  · exact absurd zero nonzero
  · exact ⟨sound.ring, fun b member => (sound.placed b (Or.inl member)).size⟩

/-- The blocks in use, each with its own header, are apart from each other, from the
static header and from the free blocks with theirs. -/
def Separate (base : Nat) (s : Program) : Prop :=
  s.live.Pairwise Apart ∧ ∃ blocks, FreeList base s.heap blocks ∧
    ∀ b ∈ s.live, base + 8 ≤ b.addr ∧ ∀ c ∈ blocks, Apart c b

theorem Tidy.separate (tidy : Tidy base s blocks) : Separate base s := by
  obtain ⟨apart, away, placed⟩ := tidy.apart
  exact ⟨apart, blocks, tidy.freeList, fun b member =>
    ⟨(placed b (Or.inr member)).1, fun c free => away c free b member⟩⟩

/-- While every `malloc` asks for less than 2 GB and the process does not shrink,
`malloc` and `free` come back, the blocks in use are apart from each other and from
the allocator's headers, a new block has the bytes that were asked for and is
refused only when the kernel refuses, and no call changes what another block holds. -/
theorem blocks_in_use_are_disjoint (base brk : Nat) (mem : Bytes) (events : List Event)
    (event : Event) (low : 0 < base) (room : base + 8 ≤ brk) (high : brk < 2147483648)
    (allowed : Allowed (Umalloc.step base) (Allows base) (some (fresh mem brk)) (events ++ [event])) :
    ∃ s s', run (Umalloc.step base) (some (fresh mem brk)) events = some s ∧
      Umalloc.step base (some s) event = some s' ∧ Separate base s' ∧
      (∀ nbytes ok, event = .malloc nbytes ok →
        (s'.live = s.live ∧ ¬ Granted s.heap (unitsFor nbytes) ok) ∨
          ∃ b, s'.live = b :: s.live ∧ nbytes.toNat ≤ 8 * (b.units - 1)) ∧
      ∀ b ∈ s.live, b ∈ s'.live → ∀ place, b.Payload place →
        s'.heap.mem place = s.heap.mem place ∨ ∃ byte, event = .store place byte := by
  obtain ⟨before, now, _⟩ := allowed_append.mp allowed
  obtain ⟨s, blocks, reached, tidy⟩ := tidy_run low room high before
  rw [reached] at now
  refine ⟨s, ?_⟩
  cases event with
  | malloc nbytes ok =>
    obtain ⟨s', blocks', result, tidy', outcome, kept⟩ := tidy.malloc low now ok
    refine ⟨s', reached, result, tidy'.separate, ?_, fun b member _ place inside =>
      Or.inl (kept b member place inside)⟩
    rintro nbytes' ok' same
    cases same
    refine outcome.imp_right fun ⟨b, live, units⟩ => ⟨b, live, ?_⟩
    rw [units, unitsFor_eq now]
    omega
  | free ap =>
    obtain ⟨b, member, rfl⟩ := now
    obtain ⟨s', blocks', result, tidy', _, kept⟩ := tidy.free low member
    exact ⟨s', reached, result, tidy'.separate, (fun _ _ same => by cases same),
      fun c _ member place inside => Or.inl (kept c member place inside)⟩
  | store addr byte =>
    refine ⟨_, reached, rfl, (tidy.store byte now).separate, (fun _ _ same => by cases same),
      fun b _ _ place _ => ?_⟩
    by_cases here : place = addr
    · exact Or.inr ⟨byte, by rw [here]⟩
    · exact Or.inl (update_of_ne here _ _)
  | sbrk n ok =>
    obtain ⟨tidy', live, mem'⟩ := tidy.sbrk now ok
    exact ⟨_, reached, rfl, tidy'.separate, (fun _ _ same => by cases same),
      fun b _ _ place _ => Or.inl (congrFun mem' place)⟩

def session : List Event :=
  [.malloc 20 true, .store 36841 7, .free 36840, .malloc 100 true]

theorem session_keeps_blocks_apart :
    ∃ s s', run (Umalloc.step 64) (some (fresh (fun _ => 0) 4096)) session = some s ∧
      Umalloc.step 64 (some s) (.malloc 50000 false) = some s' ∧ Separate 64 s' := by
  obtain ⟨s, s', reached, next, apart, _⟩ := blocks_in_use_are_disjoint 64 4096 (fun _ => 0) session
    (.malloc 50000 false) (by decide) (by decide) (by decide) (by decide +kernel)
  exact ⟨s, s', reached, next, apart⟩

/-- Under the same conditions the memory that the allocator got is exactly the
blocks in use and the free blocks; the free list visits the free blocks in the
order of their addresses, and no two of them touch. -/
theorem free_blocks_are_merged (base brk : Nat) (mem : Bytes) (events : List Event) (low : 0 < base)
    (room : base + 8 ≤ brk) (high : brk < 2147483648)
    (allowed : Allowed (Umalloc.step base) (Allows base) (some (fresh mem brk)) events) :
    ∃ s blocks, run (Umalloc.step base) (some (fresh mem brk)) events = some s ∧
      blocks.Pairwise Before ∧ (∀ b ∈ blocks, ∀ c ∈ s.live, Apart b c) ∧
      (∀ place, InArena s.arena place ↔ ∃ b ∈ blocks ++ s.live, b.Has place) ∧
      FreeList base s.heap blocks := by
  obtain ⟨s, blocks, reached, tidy⟩ := tidy_run low room high allowed
  refine ⟨s, blocks, reached, ?_, tidy.apart.2.1, fun place => (tidy.covers place).symm,
    tidy.freeList⟩
  rcases tidy.ready with ⟨_, rfl, _⟩ | ⟨_, sound⟩
  · exact List.Pairwise.nil
  · exact sound.sorted

theorem session_leaves_merged_blocks :
    ∃ s blocks, run (Umalloc.step 64) (some (fresh (fun _ => 0) 4096)) session = some s ∧
      blocks.Pairwise Before ∧
      ∀ place, InArena s.arena place ↔ ∃ b ∈ blocks ++ s.live, b.Has place := by
  obtain ⟨s, blocks, reached, sorted, _, covers, _⟩ := free_blocks_are_merged 64 4096 (fun _ => 0)
    session (by decide) (by decide) (by decide) (by decide +kernel)
  exact ⟨s, blocks, reached, sorted, covers⟩

end Runs

end OsProjects.Umalloc
