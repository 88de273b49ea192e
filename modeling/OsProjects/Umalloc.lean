import OsProjects.ByteStore
import OsProjects.Rings
import Mathlib.Data.List.Pairwise

/-!
The storage allocator of user programs (`umalloc.c`). Free blocks form a circular
list through their headers, in the order of their addresses, with the static
header `base` in front; `free` puts a block back in its place and joins it with
its neighbours, `malloc` takes the first block that is large enough and asks the
system for more when there is none.

Addresses are numbers below 2^32; a header is two words of the program's memory,
and `p + n` on headers goes eight bytes at a time. `none` is a loop that does not
come to an end.
-/

namespace OsProjects.Umalloc

open ByteStore Rings List

structure Heap where
  mem : Bytes
  freep : Nat
  brk : Nat

def ptr (mem : Bytes) (p : Nat) : Nat := (wordAt mem p).toNat

def size (mem : Bytes) (p : Nat) : Nat := (wordAt mem (p + 4)).toNat

def setPtr (mem : Bytes) (p target : Nat) : Bytes := putWord mem p (UInt32.ofNat target)

def setSize (mem : Bytes) (p units : Nat) : Bytes := putWord mem (p + 4) (UInt32.ofNat units)

def plus (p n : Nat) : Nat := (p + 8 * n) % 4294967296

def header (ap : Nat) : Nat := (ap + 4294967288) % 4294967296

def stops (mem : Bytes) (bp p : Nat) : Bool :=
  (decide (bp > p) && decide (bp < ptr mem p)) ||
    (decide (p ≥ ptr mem p) && (decide (bp > p) || decide (bp < ptr mem p)))

def rounds : Nat := 536870912

def joinRight (mem : Bytes) (bp p : Nat) : Bytes :=
  if plus bp (size mem bp) = ptr mem p then
    let mem := setSize mem bp (size mem bp + size mem (ptr mem p))
    setPtr mem bp (ptr mem (ptr mem p))
  else setPtr mem bp (ptr mem p)

def joinLeft (mem : Bytes) (bp p : Nat) : Bytes :=
  if plus p (size mem p) = bp then
    let mem := setSize mem p (size mem p + size mem bp)
    setPtr mem p (ptr mem bp)
  else setPtr mem p bp

def free (h : Heap) (ap : Nat) : Option Heap :=
  let bp := header ap
  (walk (ptr h.mem) (stops h.mem bp) rounds h.freep).map fun p =>
    { h with mem := joinLeft (joinRight h.mem bp p) bp p, freep := p }

/-- `sbrk(n)` with the word that `n` is; the answer `-1` is `none`. `ok` tells
whether the kernel finds the pages. A word above 2^31 is negative and shrinks the
process. -/
def sbrk (h : Heap) (n : Nat) (ok : Bool) : Option (Nat × Heap) :=
  if n = 0 then some (h.brk, h)
  else if n < 2147483648 then
    if ok ∧ h.brk + n < 2147483648 then some (h.brk, { h with brk := h.brk + n }) else none
  else
    let newsz := (h.brk + n) % 4294967296
    if newsz ≥ h.brk then some (h.brk, h)
    else if newsz = 0 then none
    else some (h.brk, { h with brk := newsz })

def requested (nu : Nat) : Nat := if nu < 4096 then 4096 else nu

def morecore (h : Heap) (nu : Nat) (ok : Bool) : Option (Heap × Nat) :=
  match sbrk h (requested nu * 8 % 4294967296) ok with
  | none => some (h, 0)
  | some (hp, h) =>
    (free { h with mem := setSize h.mem hp (requested nu) } (plus hp 1)).map fun h => (h, h.freep)

def carve (h : Heap) (prevp p nunits : Nat) : Heap × Nat :=
  if size h.mem p = nunits then
    ({ h with mem := setPtr h.mem prevp (ptr h.mem p), freep := prevp }, plus p 1)
  else
    let mem := setSize h.mem p (size h.mem p - nunits)
    let p := plus p (size mem p)
    ({ h with mem := setSize mem p nunits, freep := prevp }, plus p 1)

def mallocLoop (ok : Bool) (nunits : Nat) : Nat → Heap → Nat → Nat → Option (Heap × Nat)
  | 0, _, _, _ => none
  | fuel + 1, h, prevp, p =>
    if size h.mem p ≥ nunits then some (carve h prevp p nunits)
    else if p = h.freep then
      match morecore h nunits ok with
      | none => none
      | some (h, p) =>
        if p = 0 then some (h, 0) else mallocLoop ok nunits fuel h p (ptr h.mem p)
    else mallocLoop ok nunits fuel h p (ptr h.mem p)

def unitsFor (nbytes : UInt32) : Nat := (nbytes + 7).toNat / 8 + 1

def init (base : Nat) (h : Heap) : Heap :=
  if h.freep = 0 then { h with mem := setSize (setPtr h.mem base base) base 0, freep := base }
  else h

def malloc (base : Nat) (h : Heap) (nbytes : UInt32) (ok : Bool) : Option (Heap × Nat) :=
  let h := init base h
  mallocLoop ok (unitsFor nbytes) (2 * rounds) h h.freep (ptr h.mem h.freep)

section Headers
variable (mem : Bytes) (p q value : Nat)

def Touches (mem mem' : Bytes) (p : Nat) : Prop :=
  ∀ index, index < p ∨ p + 8 ≤ index → mem' index = mem index

variable {mem p q value}

theorem touches_setPtr : Touches mem (setPtr mem p value) p :=
  fun index apart => putWord_outside (by omega)

theorem touches_setSize : Touches mem (setSize mem p value) p :=
  fun index apart => putWord_outside (by omega)

theorem Touches.trans {mem' mem'' : Bytes} (first : Touches mem mem' p)
    (second : Touches mem' mem'' p) : Touches mem mem'' p :=
  fun index apart => (second index apart).trans (first index apart)

theorem Touches.ptr {mem' : Bytes} (touches : Touches mem mem' p) (apart : q + 8 ≤ p ∨ p + 8 ≤ q) :
    ptr mem' q = ptr mem q := by
  unfold Umalloc.ptr
  rw [wordAt_congr mem' mem q q fun index small => touches _ (by omega)]

theorem Touches.size {mem' : Bytes} (touches : Touches mem mem' p)
    (apart : q + 8 ≤ p ∨ p + 8 ≤ q) : size mem' q = size mem q := by
  unfold Umalloc.size
  rw [wordAt_congr mem' mem (q + 4) (q + 4) fun index small => touches _ (by omega)]

@[simp] theorem ptr_setPtr (small : value < 4294967296) : ptr (setPtr mem p value) p = value := by
  rw [ptr, setPtr, wordAt_putWord_same, UInt32.toNat_ofNat_of_lt' small]

@[simp] theorem size_setSize (small : value < 4294967296) :
    size (setSize mem p value) p = value := by
  rw [size, setSize, wordAt_putWord_same, UInt32.toNat_ofNat_of_lt' small]

@[simp] theorem size_setPtr : size (setPtr mem p value) p = size mem p := by
  rw [size, size, setPtr, wordAt_putWord_other (by omega)]

@[simp] theorem ptr_setSize : ptr (setSize mem p value) p = ptr mem p := by
  rw [ptr, ptr, setSize, wordAt_putWord_other (by omega)]

theorem plus_eq {units : Nat} (small : p + 8 * units < 4294967296) :
    plus p units = p + 8 * units := Nat.mod_eq_of_lt small

theorem header_eq (small : p + 8 < 4294967296) : header (p + 8) = p := by
  unfold header
  omega

end Headers

structure Block where
  addr : Nat
  units : Nat
  deriving DecidableEq

def Block.stop (b : Block) : Nat := b.addr + 8 * b.units

def Block.Has (b : Block) (place : Nat) : Prop := b.addr ≤ place ∧ place < b.stop

def Apart (b c : Block) : Prop := b.stop ≤ c.addr ∨ c.stop ≤ b.addr

def Before (b c : Block) : Prop := b.stop < c.addr

def nodes (base : Nat) (blocks : List Block) : List Nat := base :: blocks.map Block.addr

structure Placed (base : Nat) (h : Heap) (b : Block) : Prop where
  low : base + 8 ≤ b.addr
  high : b.stop ≤ h.brk
  units : 1 ≤ b.units
  size : size h.mem b.addr = b.units

structure Sound (base : Nat) (h : Heap) (blocks live : List Block) : Prop where
  brk : base + 8 ≤ h.brk ∧ h.brk < 2147483648
  placed : ∀ b, b ∈ blocks ∨ b ∈ live → Placed base h b
  sorted : blocks.Pairwise Before
  liveApart : live.Pairwise Apart
  apart : ∀ b ∈ blocks, ∀ c ∈ live, Apart b c
  ring : Ring (ptr h.mem) (nodes base blocks)
  empty : size h.mem base = 0
  freep : h.freep ∈ nodes base blocks

variable {node : Nat}

section Lists

theorem Apart.symm {b c : Block} (apart : Apart b c) : Apart c b := Or.symm apart

instance : Std.Symm Apart := ⟨fun _ _ => Apart.symm⟩

/-- A block that is in use lies between two neighbours in the free list. -/
theorem split_blocks {blocks : List Block} {b : Block} (sorted : blocks.Pairwise Before)
    (apart : ∀ c ∈ blocks, Apart c b) :
    ∃ left right, blocks = left ++ right ∧ (∀ c ∈ left, c.stop ≤ b.addr) ∧
      ∀ c ∈ right, b.stop ≤ c.addr := by
  induction blocks with
  | nil => exact ⟨[], [], rfl, by simp, by simp⟩
  | cons first rest ih =>
    obtain ⟨before, sorted⟩ := pairwise_cons.mp sorted
    rcases apart first mem_cons_self with low | high
    · obtain ⟨left, right, rfl, lower, higher⟩ := ih sorted fun c member =>
        apart c (mem_cons_of_mem _ member)
      refine ⟨first :: left, right, rfl, ?_, higher⟩
      simpa using ⟨low, lower⟩
    · refine ⟨[], first :: rest, rfl, by simp, ?_⟩
      intro c member
      rcases mem_cons.mp member with rfl | later
      · exact high
      · have gap : first.stop < c.addr := before c later
        unfold Block.stop at gap
        omega

theorem nodes_append (base : Nat) (left right : List Block) :
    nodes base (left ++ right) = nodes base left ++ right.map Block.addr := by
  simp [nodes]

def firstNode (base : Nat) (blocks : List Block) : Nat := (blocks.map Block.addr).headD base

theorem find?_unique {stop : Nat → Bool} {list : List Nat} (member : node ∈ list)
    (only : ∀ other ∈ list, stop other = true ↔ other = node) : list.find? stop = some node := by
  cases found : list.find? stop with
  | none =>
    have never := find?_eq_none.mp found node member
    exact absurd ((only node member).mpr rfl) never
  | some other =>
    rw [(only other (mem_of_find?_eq_some found)).mp (find?_some found)]

end Lists

theorem Sound.spaced {base : Nat} {h : Heap} {blocks live : List Block}
    (sound : Sound base h blocks live) : (nodes base blocks).Pairwise (fun x y => x + 8 ≤ y) := by
  refine pairwise_cons.mpr ⟨fun node member => ?_, ?_⟩
  · obtain ⟨c, here, rfl⟩ := mem_map.mp member
    exact (sound.placed c (Or.inl here)).low
  · rw [pairwise_map]
    refine sound.sorted.imp_of_mem fun member _ gap => ?_
    have units := (sound.placed _ (Or.inl member)).units
    unfold Before Block.stop at gap
    omega

theorem length_of_spaced {first bound : Nat} {rest : List Nat}
    (spaced : (first :: rest).Pairwise (fun x y => x + 8 ≤ y))
    (below : ∀ node ∈ first :: rest, node < bound) : first + 8 * rest.length < bound := by
  induction rest generalizing first with
  | nil => exact below first mem_cons_self
  | cons second rest ih =>
    obtain ⟨gap, spaced⟩ := pairwise_cons.mp spaced
    have later := ih spaced fun node member => below node (mem_cons_of_mem _ member)
    have onward := gap second mem_cons_self
    rw [length_cons]
    omega

theorem Sound.length_lt {base : Nat} {h : Heap} {blocks live : List Block}
    (sound : Sound base h blocks live) : (nodes base blocks).length < rounds := by
  have brk := sound.brk
  have counted := @length_of_spaced _ 2147483648 _ sound.spaced fun node member => by
    rcases mem_cons.mp member with rfl | inside
    · omega
    · obtain ⟨c, here, rfl⟩ := mem_map.mp inside
      have high := (sound.placed c (Or.inl here)).high
      have units := (sound.placed c (Or.inl here)).units
      unfold Block.stop at high
      omega
  rw [nodes, length_cons, rounds]
  omega

theorem has_append {first second : List Block} {place : Nat} :
    (∃ c ∈ first ++ second, c.Has place) ↔
      (∃ c ∈ first, c.Has place) ∨ ∃ c ∈ second, c.Has place := by
  simp only [mem_append, or_and_right, exists_or]

variable {d : Block} {mem mem' : Bytes}

section Place
variable {base : Nat} {h : Heap} {left right live : List Block} {b : Block}

/-- A block in use, between its neighbours in the free list. `front` are the nodes
before the last one in front of the block, which is `p`. -/
structure Place (base : Nat) (h : Heap) (left right : List Block) (b : Block) (live : List Block)
    (front : List Nat) (p : Nat) : Prop where
  sound : Sound base h (left ++ right) (b :: live)
  lower : ∀ c ∈ left, c.stop ≤ b.addr
  higher : ∀ c ∈ right, b.stop ≤ c.addr
  spelled : nodes base left = front ++ [p]

variable {front : List Nat} {p : Nat}

theorem exists_place {blocks : List Block} (sound : Sound base h blocks (b :: live)) :
    ∃ left right front p, blocks = left ++ right ∧ Place base h left right b live front p := by
  obtain ⟨left, right, rfl, lower, higher⟩ := split_blocks sound.sorted fun c member =>
    sound.apart c member b mem_cons_self
  have some : nodes base left ≠ [] := cons_ne_nil _ _
  exact ⟨left, right, _, _, rfl, sound, lower, higher, (dropLast_append_getLast some).symm⟩

section
variable (place : Place base h left right b live front p)
include place

theorem Place.placed : Placed base h b := place.sound.placed b (Or.inr mem_cons_self)

theorem Place.nodes_eq : nodes base (left ++ right) = front ++ p :: right.map Block.addr := by
  rw [nodes_append, place.spelled, append_assoc, singleton_append]

theorem Place.ring : Ring (ptr h.mem) (p :: (right.map Block.addr ++ front)) := by
  have ring := place.sound.ring
  rw [place.nodes_eq] at ring
  exact ring.rotate

/-- The nodes up to `p` are `base` or blocks in front of `b`. -/
theorem Place.node_le (member : node ∈ front ++ [p]) : node = base ∨ ∃ c ∈ left, c.addr = node := by
  rw [← place.spelled] at member
  rcases mem_cons.mp member with rfl | inside
  · exact Or.inl rfl
  · obtain ⟨c, here, rfl⟩ := mem_map.mp inside
    exact Or.inr ⟨c, here, rfl⟩

theorem Place.node_lt (member : node ∈ front ++ [p]) : node + 8 ≤ b.addr := by
  rcases place.node_le member with rfl | ⟨c, here, rfl⟩
  · exact place.placed.low
  · have units := (place.sound.placed c (Or.inl (mem_append_left _ here))).units
    have lower := place.lower c here
    unfold Block.stop at lower
    omega

theorem Place.p_lt : p + 8 ≤ b.addr := place.node_lt (mem_append_right _ (mem_singleton_self p))

theorem Place.next : ptr h.mem p = firstNode base right := by
  have ring := place.ring
  have start := place.spelled
  cases right with
  | cons r rest => exact ring.1
  | nil =>
    cases front with
    | nil =>
      have same : base = p := (cons.inj start).1
      exact same ▸ ring
    | cons first front =>
      have same : base = first := (cons.inj start).1
      exact same ▸ ring.1

/-- Of all nodes only the one in front of the block ends the search. -/
theorem Place.stops_iff (member : node ∈ front ++ p :: right.map Block.addr) :
    stops h.mem b.addr node = true ↔ node = p := by
  have low := place.placed.low
  have ring := place.ring
  have bound := place.p_lt
  by_cases here : node = p
  · subst here
    refine iff_of_true ?_ rfl
    rw [stops, place.next]
    cases right with
    | nil =>
      have start : base ≤ node := by
        rcases place.node_le (mem_append_right _ (mem_singleton_self node)) with
          rfl | ⟨c, inside, rfl⟩
        · exact Nat.le_refl _
        · have := (place.sound.placed c (Or.inl (mem_append_left _ inside))).low
          omega
      simp only [firstNode, map_nil, headD_nil]
      simp only [Bool.or_eq_true, Bool.and_eq_true, decide_eq_true_eq]
      omega
    | cons r rest =>
      have after := place.higher r mem_cons_self
      have units := place.placed.units
      unfold Block.stop at after
      simp only [firstNode, map_cons, headD_cons]
      simp only [Bool.or_eq_true, Bool.and_eq_true, decide_eq_true_eq]
      omega
  · refine iff_of_false ?_ here
    simp only [stops, Bool.or_eq_true, Bool.and_eq_true, decide_eq_true_eq]
    have spaced := place.sound.spaced
    have whole := place.sound.ring
    rw [place.nodes_eq] at spaced whole
    rcases mem_append.mp member with before | after
    · -- the next node is not past the block
      obtain ⟨f, g, rfl⟩ := append_of_mem before
      rw [append_assoc, cons_append] at whole spaced
      have next : ptr h.mem node = (g ++ [p]).head (by simp) := by
        cases g with
        | nil | cons => exact whole.rotate.1
      have inside : ptr h.mem node ∈ g ++ [p] := next ▸ head_mem _
      have lower := place.node_lt (mem_append.mpr ((mem_append.mp inside).imp_left fun there =>
          mem_append_right f (mem_cons_of_mem node there)))
      have onward : node + 8 ≤ ptr h.mem node := by
        refine (pairwise_cons.mp (pairwise_append.mp spaced).2.1).1 _ ?_
        rcases mem_append.mp inside with there | there
        · exact mem_append_left _ there
        · exact mem_append_right _ (mem_singleton.mp there ▸ mem_cons_self)
      omega
    · have behind : node ∈ right.map Block.addr := (mem_cons.mp after).resolve_left here
      obtain ⟨c, inside, rfl⟩ := mem_map.mp behind
      have higher := place.higher c inside
      have units := place.placed.units
      unfold Block.stop at higher
      obtain ⟨f, g, split⟩ := append_of_mem behind
      have turned : front ++ p :: right.map Block.addr = (front ++ [p] ++ f) ++ c.addr :: g := by
        rw [split]
        simp
      rw [turned] at whole spaced
      cases g with
      | nil =>
        -- the last node leads back to `base`
        have first : ptr h.mem c.addr = base := by
          rw [← place.spelled] at whole
          exact whole.rotate.1
        omega
      | cons second g =>
        have next : ptr h.mem c.addr = second := whole.rotate.1
        have onward : c.addr + 8 ≤ second :=
          (pairwise_cons.mp (pairwise_append.mp spaced).2.1).1 _ mem_cons_self
        omega

theorem Place.length_le : (front ++ p :: right.map Block.addr).length ≤ rounds := by
  rw [← place.nodes_eq]
  exact Nat.le_of_lt place.sound.length_lt

/-- The search of `free` finds the node in front of the block. -/
theorem Place.found : walk (ptr h.mem) (stops h.mem b.addr) rounds h.freep = some p := by
  have whole := place.sound.ring
  have start := place.sound.freep
  rw [place.nodes_eq] at whole start
  have inside : p ∈ front ++ p :: right.map Block.addr := mem_append_right _ mem_cons_self
  obtain ⟨f, g, split⟩ := append_of_mem start
  rw [split] at whole
  rw [whole.walk (split ▸ place.length_le) ⟨p, split ▸ inside, (place.stops_iff inside).mpr rfl⟩]
  have mixed : ∀ node, node ∈ h.freep :: (g ++ f) ↔ node ∈ front ++ p :: right.map Block.addr := by
    intro node
    rw [split]
    simp only [mem_append, mem_cons]
    constructor <;> rintro (here | here | here) <;> simp [here]
  exact find?_unique ((mixed p).mpr inside) fun node member => place.stops_iff ((mixed node).mp member)
end

inductive Joined (mem mem' : Bytes) (p : Nat) (b : Block) :
    List Block → Block → List Block → Prop where
  | alone {right : List Block} (gap : ∀ c ∈ right, Before b c)
      (onward : ptr mem' b.addr = ptr mem p) : Joined mem mem' p b right b right
  | merged {r : Block} {rest : List Block} (touch : b.stop = r.addr)
      (onward : ptr mem' b.addr = ptr mem r.addr) :
      Joined mem mem' p b (r :: rest) ⟨b.addr, b.units + r.units⟩ rest

namespace Joined
variable {mem mem' : Bytes} {c : Block} {rest : List Block}

section
variable (joined : Joined mem mem' p b right c rest)
include joined

theorem addr : c.addr = b.addr := by
  cases joined <;> rfl

theorem units (some : 1 ≤ b.units) : 1 ≤ c.units := by
  cases joined with
  | alone => exact some
  | merged => exact Nat.le_add_right_of_le some

theorem le : b.units ≤ c.units := by
  cases joined with
  | alone => exact Nat.le_refl _
  | merged => exact Nat.le_add_right _ _

theorem subset (member : d ∈ rest) : d ∈ right := by
  cases joined with
  | alone => exact member
  | merged => exact mem_cons_of_mem _ member

theorem gap (sorted : right.Pairwise Before) (member : d ∈ rest) : Before c d := by
  cases joined with
  | alone gap => exact gap d member
  | @merged r rest touch _ =>
    have before : r.stop < d.addr := (pairwise_cons.mp sorted).1 d member
    unfold Before
    unfold Block.stop at before touch ⊢
    simp only
    omega

theorem stop_le {bound : Nat} (below : ∀ d ∈ b :: right, d.stop ≤ bound) : c.stop ≤ bound := by
  cases joined with
  | alone => exact below b mem_cons_self
  | @merged r rest touch _ =>
    have high := below r (mem_cons_of_mem _ mem_cons_self)
    unfold Block.stop at high touch ⊢
    simp only
    omega

theorem sorted (sorted : right.Pairwise Before) : rest.Pairwise Before := by
  cases joined with
  | alone => exact sorted
  | merged => exact (pairwise_cons.mp sorted).2

/-- A block that is apart from the joined ones does not lie between them. -/
theorem apart (some : 1 ≤ d.units) (away : ∀ e ∈ b :: right, Apart e d) : Apart c d := by
  cases joined with
  | alone => exact away b mem_cons_self
  | @merged r rest touch _ =>
    have first := away b mem_cons_self
    have second := away r (mem_cons_of_mem _ mem_cons_self)
    unfold Apart Block.stop at first second ⊢
    unfold Block.stop at touch
    simp only
    omega

theorem covers (place : Nat) : (∃ d ∈ c :: rest, d.Has place) ↔ ∃ d ∈ b :: right, d.Has place := by
  cases joined with
  | alone => exact Iff.rfl
  | @merged r rest touch _ =>
    simp only [exists_mem_cons_iff, ← or_assoc]
    refine or_congr ?_ Iff.rfl
    unfold Block.Has Block.stop
    unfold Block.stop at touch
    simp only
    omega

theorem ring (whole : Ring (ptr mem) (p :: (right.map Block.addr ++ front))) {mem'' : Bytes}
    (behind : ptr mem'' p = b.addr) (onward : ptr mem'' b.addr = ptr mem' b.addr)
    (same : ∀ node ∈ rest.map Block.addr ++ front, ptr mem'' node = ptr mem node) :
    Ring (ptr mem'') (p :: b.addr :: (rest.map Block.addr ++ front)) := by
  cases joined with
  | alone _ next => exact whole.insert behind (onward.trans next) same
  | merged _ next => exact Ring.replace whole behind (onward.trans next) same

theorem ring_merged (whole : Ring (ptr mem) (p :: (right.map Block.addr ++ front))) {mem'' : Bytes}
    (onward : ptr mem'' p = ptr mem' b.addr)
    (same : ∀ node ∈ rest.map Block.addr ++ front, ptr mem'' node = ptr mem node) :
    Ring (ptr mem'') (p :: (rest.map Block.addr ++ front)) := by
  cases joined with
  | alone _ next =>
    refine whole.congr fun node member => ?_
    rcases mem_cons.mp member with rfl | other
    · exact onward.trans next
    · exact same node other
  | merged _ next => exact Ring.remove whole (onward.trans next) same
end

end Joined

theorem ptr_lt (mem : Bytes) (p : Nat) : ptr mem p < 4294967296 := UInt32.toNat_lt _

theorem Place.joinRight (place : Place base h left right b live front p) :
    ∃ c rest, Joined h.mem (joinRight h.mem b.addr p) p b right c rest ∧
      size (joinRight h.mem b.addr p) b.addr = c.units ∧
      Touches h.mem (joinRight h.mem b.addr p) b.addr := by
  obtain ⟨low, high, units, sized⟩ := place.placed
  have brk := place.sound.brk
  have stop : plus b.addr (size h.mem b.addr) = b.stop := by
    rw [sized, plus_eq]
    · rfl
    · unfold Block.stop at high
      omega
  have next := place.next
  have away := place.p_lt
  unfold Umalloc.joinRight
  rw [stop]
  by_cases touch : b.stop = ptr h.mem p
  · rw [if_pos touch]
    cases right with
    | nil =>
      -- the list goes back to `base`, which lies in front
      rw [next] at touch
      simp only [firstNode, map_nil, headD_nil, Block.stop] at touch
      omega
    | cons r rest =>
      have meets : ptr h.mem p = r.addr := next
      rw [meets] at touch ⊢
      obtain ⟨_, rhigh, _, rsized⟩ := place.sound.placed r
        (Or.inl (mem_append_right _ mem_cons_self))
      unfold Block.stop at rhigh high touch
      have apart : p + 8 ≤ b.addr ∨ b.addr + 8 ≤ p := Or.inl away
      have apart' : r.addr + 8 ≤ b.addr ∨ b.addr + 8 ≤ r.addr := Or.inr (by omega)
      have kept : ptr (setSize h.mem b.addr (size h.mem b.addr + size h.mem r.addr)) p = r.addr := by
        rw [touches_setSize.ptr apart, meets]
      have onward : ptr (setSize h.mem b.addr (size h.mem b.addr + size h.mem r.addr)) r.addr =
          ptr h.mem r.addr := touches_setSize.ptr apart'
      refine ⟨⟨b.addr, b.units + r.units⟩, rest, Joined.merged touch ?_, ?_, ?_⟩
      · simp only [kept, onward]
        exact ptr_setPtr (ptr_lt _ _)
      · simp only [size_setPtr, sized, rsized]
        exact size_setSize (by omega)
      · exact touches_setSize.trans touches_setPtr
  · rw [if_neg touch]
    refine ⟨b, right, Joined.alone (fun c member => ?_) (ptr_setPtr (ptr_lt _ _)), ?_, touches_setPtr⟩
    · have order := place.sound.sorted
      cases right with
      | nil => exact absurd member not_mem_nil
      | cons r rest =>
        have first : b.stop < r.addr :=
          Nat.lt_of_le_of_ne (place.higher r mem_cons_self) fun same => touch (same.trans next.symm)
        rcases mem_cons.mp member with rfl | later
        · exact first
        · have gap : r.stop < c.addr := (pairwise_cons.mp (pairwise_append.mp order).2.1).1 c later
          unfold Before
          unfold Block.stop at gap
          omega
    · rw [size_setPtr, sized]

theorem headers_apart {c d : Block} (some : 1 ≤ c.units) (some' : 1 ≤ d.units)
    (apart : Apart c d) : c.addr + 8 ≤ d.addr ∨ d.addr + 8 ≤ c.addr := by
  unfold Apart Block.stop at apart
  omega

section
variable (place : Place base h left right b live front p)
include place

theorem Place.p_cases :
    (left = [] ∧ p = base ∧ front = []) ∨
      ∃ l a, left = l ++ [a] ∧ p = a.addr ∧ front = nodes base l := by
  rcases eq_nil_or_concat left with rfl | ⟨l, a, split⟩
  · have spelled := place.spelled
    cases front with
    | nil => exact Or.inl ⟨rfl, (cons.inj spelled).1.symm, rfl⟩
    | cons first front => simp [nodes] at spelled
  · rw [concat_eq_append] at split
    have spelled : nodes base l ++ [a.addr] = front ++ [p] := by
      rw [← place.spelled, split]
      simp [nodes]
    obtain ⟨same, last⟩ := append_inj' spelled rfl
    exact Or.inr ⟨l, a, split, (cons.inj last).1.symm, same.symm⟩

/-- The nodes other than `p` have headers apart from that of `p` and of the block. -/
theorem Place.node_apart (member : node ∈ right.map Block.addr ++ front) :
    (node + 8 ≤ p ∨ p + 8 ≤ node) ∧ (node + 8 ≤ b.addr ∨ b.addr + 8 ≤ node) := by
  have spaced := place.sound.spaced
  rw [place.nodes_eq] at spaced
  obtain ⟨_, tail, cross⟩ := pairwise_append.mp spaced
  rcases mem_append.mp member with behind | before
  · obtain ⟨c, inside, rfl⟩ := mem_map.mp behind
    have higher := place.higher c inside
    have units := place.placed.units
    have bound := place.p_lt
    unfold Block.stop at higher
    omega
  · exact ⟨Or.inl (cross node before p mem_cons_self),
      Or.inl (place.node_lt (mem_append_left _ before))⟩

/-- A live block's header is apart from that of `p` and of the block. -/
theorem Place.live_apart (member : d ∈ live) :
    (d.addr + 8 ≤ p ∨ p + 8 ≤ d.addr) ∧ (d.addr + 8 ≤ b.addr ∨ b.addr + 8 ≤ d.addr) := by
  have placed := place.sound.placed d (Or.inr (mem_cons_of_mem _ member))
  have other := (pairwise_cons.mp place.sound.liveApart).1 d member
  refine ⟨?_, headers_apart placed.units place.placed.units other.symm⟩
  rcases place.p_cases with ⟨_, rfl, _⟩ | ⟨l, a, rfl, rfl, _⟩
  · exact Or.inr placed.low
  · have inside : a ∈ l ++ [a] ++ right := by simp
    have apart := place.sound.apart a inside d (mem_cons_of_mem _ member)
    exact headers_apart placed.units (place.sound.placed a (Or.inl inside)).units apart.symm

theorem Place.base_cases : base = p ∨ base ∈ front := by
  have spelled := place.spelled
  cases front with
  | nil => exact Or.inl (cons.inj spelled).1
  | cons first front =>
    rw [(cons.inj spelled).1]
    exact Or.inr mem_cons_self

/-- The other blocks' headers, in the free list and in use. -/
theorem Place.apart (member : d ∈ left ++ right ∨ d ∈ live) :
    (d.addr = p ∨ d.addr + 8 ≤ p ∨ p + 8 ≤ d.addr) ∧
      (d.addr + 8 ≤ b.addr ∨ b.addr + 8 ≤ d.addr) := by
  rcases member with listed | used
  · have inside : d.addr ∈ front ++ p :: right.map Block.addr := by
      rw [← place.nodes_eq]
      exact mem_cons_of_mem _ (mem_map_of_mem listed)
    rcases mem_append.mp inside with before | after
    · have apart := place.node_apart (mem_append_right _ before)
      exact ⟨Or.inr apart.1, apart.2⟩
    · rcases mem_cons.mp after with here | behind
      · exact ⟨Or.inl here, Or.inl (here ▸ place.p_lt)⟩
      · have apart := place.node_apart (mem_append_left _ behind)
        exact ⟨Or.inr apart.1, apart.2⟩
  · have apart := place.live_apart used
    exact ⟨Or.inr apart.1, apart.2⟩

/-- Neither of the two writes changes another block's header. -/
theorem Place.kept
    (first : Touches h.mem mem b.addr) (second : Touches mem mem' p) (other : d.addr ≠ p)
    (member : d ∈ left ++ right ∨ d ∈ live) : Placed base { h with mem := mem', freep := p } d := by
  obtain ⟨apart, apart'⟩ := place.apart member
  obtain ⟨low, high, units, sized⟩ := place.sound.placed d (member.imp_right (mem_cons_of_mem _))
  exact ⟨low, high, units,
    (second.size (apart.resolve_left other)).trans ((first.size apart').trans sized)⟩

theorem Place.links  (first : Touches h.mem mem b.addr) (second : Touches mem mem' p)
    (member : node ∈ right.map Block.addr ++ front) : ptr mem' node = ptr h.mem node := by
  obtain ⟨apart, apart'⟩ := place.node_apart member
  exact (second.ptr apart).trans (first.ptr apart')

theorem Place.left_gap (gap : plus p (size h.mem p) ≠ b.addr) : ∀ d ∈ left, Before d b := by
  intro d member
  rcases place.p_cases with ⟨rfl, _, _⟩ | ⟨l, a, rfl, rfl, _⟩
  · exact absurd member not_mem_nil
  · have inside : a ∈ l ++ [a] ++ right := by simp
    obtain ⟨_, high, units, sized⟩ := place.sound.placed a (Or.inl inside)
    have brk := place.sound.brk
    have last : a.stop < b.addr := by
      refine Nat.lt_of_le_of_ne (place.lower a (by simp)) fun same => gap ?_
      unfold Block.stop at high same
      rw [sized, plus_eq (by omega), same]
    rcases mem_append.mp member with before | here
    · have sorted := (pairwise_append.mp place.sound.sorted).1
      have earlier : d.stop < a.addr := (pairwise_append.mp sorted).2.2 d before a (by simp)
      unfold Before
      unfold Block.stop at last
      omega
    · exact mem_singleton.mp here ▸ last
end

structure Freed (base : Nat) (h h' : Heap) (blocks : List Block) (b : Block) (live : List Block)
    (blocks' : List Block) : Prop where
  sound : Sound base h' blocks' live
  brk : h'.brk = h.brk
  covers : ∀ place, (∃ c ∈ blocks', c.Has place) ↔ ∃ c ∈ b :: blocks, c.Has place
  holds : ∃ c ∈ blocks', b.units ≤ c.units
  /-- only headers of free blocks are written -/
  spares : ∀ place, (place < base ∨ base + 8 ≤ place) →
    (∀ c ∈ b :: blocks, place < c.addr ∨ c.addr + 8 ≤ place) → h'.mem place = h.mem place

section
variable (place : Place base h left right b live front p) (first : Touches h.mem mem b.addr)
  (second : Touches mem mem' p)
include place first second

theorem Place.spares (index : Nat)
    (low : index < base ∨ base + 8 ≤ index)
    (outside : ∀ c ∈ b :: (left ++ right), index < c.addr ∨ c.addr + 8 ≤ index) :
    mem' index = h.mem index := by
  refine (second index ?_).trans (first index (outside b mem_cons_self))
  rcases place.p_cases with ⟨_, rfl, _⟩ | ⟨l, a, rfl, rfl, _⟩
  · exact low
  · exact outside a (by simp)

theorem Place.empty (inside : base ∈ front) :
    size mem' base = 0 := by
  obtain ⟨apart, apart'⟩ := place.node_apart (mem_append_right _ inside)
  exact (second.size apart).trans ((first.size apart').trans place.sound.empty)
end

theorem Place.p_mem (place : Place base h left right b live front p) (blocks : List Block) :
    p ∈ nodes base (left ++ blocks) := by
  have inside : p ∈ nodes base left := by
    rw [place.spelled]
    exact mem_append_right _ (mem_singleton_self p)
  rw [nodes_append]
  exact mem_append_left _ inside

section Joining
variable {mem : Bytes} {c : Block} {rest : List Block}

section
variable (place : Place base h left right b live front p)
  (joined : Joined h.mem mem p b right c rest)
include place joined

theorem Place.joined_high : c.stop ≤ h.brk := by
  refine joined.stop_le fun e here => ?_
  rcases mem_cons.mp here with rfl | inside
  · exact place.placed.high
  · exact (place.sound.placed e (Or.inl (mem_append_right _ inside))).high

theorem Place.joined_apart {e : Block} (used : e ∈ live) : Apart c e := by
  have member : e ∈ b :: live := mem_cons_of_mem _ used
  refine joined.apart (place.sound.placed e (Or.inr member)).units fun f here => ?_
  rcases mem_cons.mp here with rfl | inside
  · exact (pairwise_cons.mp place.sound.liveApart).1 e used
  · exact place.sound.apart f (mem_append_right _ inside) e member

theorem Place.joined_links (first : Touches h.mem mem b.addr)
    {mem' : Bytes} (second : Touches mem mem' p) (node : Nat)
    (member : node ∈ rest.map Block.addr ++ front) : ptr mem' node = ptr h.mem node := by
  refine place.links first second ?_
  rcases mem_append.mp member with behind | before
  · obtain ⟨d, inside, rfl⟩ := mem_map.mp behind
    exact mem_append_left _ (mem_map_of_mem (joined.subset inside))
  · exact mem_append_right _ before
end

end Joining

theorem Place.link (place : Place base h left right b live front p) {mem : Bytes} {c : Block}
    {rest : List Block} (joined : Joined h.mem mem p b right c rest)
    (sized : size mem b.addr = c.units) (touched : Touches h.mem mem b.addr)
    (gap : plus p (size h.mem p) ≠ b.addr) :
    Freed base h { h with mem := setPtr mem p b.addr, freep := p } (left ++ right) b live
      (left ++ c :: rest) := by
  have sound := place.sound
  obtain ⟨low, high, units, _⟩ := place.placed
  have away := place.p_lt
  have brk := sound.brk
  have second : Touches mem (setPtr mem p b.addr) p := touches_setPtr
  have bound : b.addr < 4294967296 := by
    unfold Block.stop at high
    omega
  have sizeOf : size (setPtr mem p b.addr) p = size h.mem p := by
    rw [size_setPtr, touched.size (Or.inl away)]
  obtain ⟨sortedLeft, sortedRight, cross⟩ := pairwise_append.mp sound.sorted
  have within : ∀ d ∈ left ++ rest, d ∈ left ++ right := fun d member =>
    mem_append.mpr ((mem_append.mp member).imp_right joined.subset)
  refine ⟨{
    brk, placed := ?_, sorted := ?_, liveApart := (pairwise_cons.mp sound.liveApart).2
    apart := ?_, ring := ?_, empty := ?_, freep := ?_ }, rfl, ?_,
    ⟨c, mem_append_right _ mem_cons_self, joined.le⟩, place.spares touched second⟩
  · -- the headers
    have old : ∀ d, d ∈ left ++ right ∨ d ∈ live →
        Placed base { h with mem := setPtr mem p b.addr, freep := p } d := by
      intro d member
      by_cases here : d.addr = p
      · obtain ⟨low, high, units, size⟩ := sound.placed d (member.imp_right (mem_cons_of_mem _))
        exact ⟨low, high, units, by simp only [here, sizeOf]; rw [← here, size]⟩
      · exact place.kept touched second here member
    rintro d (member | member)
    · rcases mem_cons.mp (perm_middle.mem_iff.mp member) with rfl | inside
      · refine ⟨joined.addr ▸ low, place.joined_high joined, joined.units units, ?_⟩
        rw [joined.addr, second.size (Or.inr away), sized]
      · exact old d (Or.inl (within d inside))
    · exact old d (Or.inr member)
  · -- the order
    refine pairwise_append.mpr ⟨sortedLeft, pairwise_cons.mpr ⟨fun d member =>
      joined.gap sortedRight member, joined.sorted sortedRight⟩, fun d before e after => ?_⟩
    rcases mem_cons.mp after with rfl | behind
    · have before' := place.left_gap gap d before
      unfold Before at before' ⊢
      rw [joined.addr]
      exact before'
    · exact cross d before e (joined.subset behind)
  · -- the live blocks
    intro d member e used
    rcases mem_cons.mp (perm_middle.mem_iff.mp member) with rfl | inside
    · exact place.joined_apart joined used
    · exact sound.apart d (within d inside) e (mem_cons_of_mem _ used)
  · -- the ring
    have spelled : nodes base (left ++ c :: rest) =
        front ++ p :: b.addr :: rest.map Block.addr := by
      rw [nodes_append, place.spelled, map_cons, joined.addr, append_assoc, singleton_append]
    rw [spelled]
    exact Ring.rotate (joined.ring place.ring (ptr_setPtr bound) (second.ptr (Or.inr away))
      (place.joined_links joined touched second))
  · rcases place.base_cases with rfl | inside
    · exact sizeOf.trans sound.empty
    · exact place.empty touched second inside
  · exact place.p_mem _
  · intro index
    rw [has_append, joined.covers, exists_mem_cons_iff, exists_mem_cons_iff, has_append]
    exact or_left_comm

theorem Place.merge (place : Place base h left right b live front p) {c : Block}
    {rest : List Block} (joined : Joined h.mem mem p b right c rest)
    (touched : Touches h.mem mem b.addr) (second : Touches mem mem' p)
    (meets : plus p (size h.mem p) = b.addr) (sized : size mem' p = size h.mem p + c.units)
    (onward : ptr mem' p = ptr mem b.addr) :
    ∃ blocks', Freed base h { h with mem := mem', freep := p } (left ++ right) b live blocks' := by
  have sound := place.sound
  have brk := sound.brk
  rcases place.p_cases with ⟨_, rfl, _⟩ | ⟨l, a, rfl, rfl, spelled⟩
  · -- `base` has no bytes to join
    have low := place.placed.low
    have high := place.placed.high
    unfold Block.stop at high
    rw [sound.empty, plus_eq (by omega)] at meets
    omega
  have inFree : a ∈ l ++ [a] ++ right := by simp
  obtain ⟨low, high, units, asized⟩ := sound.placed a (Or.inl inFree)
  have stop : a.stop = b.addr := by
    rw [asized, plus_eq (by unfold Block.stop at high; omega)] at meets
    exact meets
  have cstop : (⟨a.addr, a.units + c.units⟩ : Block).stop = c.stop := by
    have same := joined.addr
    unfold Block.stop at stop ⊢
    simp only
    omega
  obtain ⟨sortedLeft, sortedRight, cross⟩ := pairwise_append.mp sound.sorted
  obtain ⟨sortedFront, _, earlier⟩ := pairwise_append.mp sortedLeft
  have within : ∀ d ∈ l ++ rest, d ∈ l ++ [a] ++ right := fun d member => by
    rcases mem_append.mp member with before | behind
    · simp [before]
    · exact mem_append_right _ (joined.subset behind)
  have elsewhere : ∀ d ∈ l ++ rest, d.addr ≠ a.addr := by
    intro d member same
    rcases mem_append.mp member with before | behind
    · have gap : d.stop < a.addr := earlier d before a (mem_singleton_self a)
      unfold Block.stop at gap
      omega
    · have gap : a.stop < d.addr := cross a (by simp) d (joined.subset behind)
      unfold Block.stop at gap
      omega
  refine ⟨l ++ ⟨a.addr, a.units + c.units⟩ :: rest,
    { brk, placed := ?_, sorted := ?_, liveApart := (pairwise_cons.mp sound.liveApart).2
      apart := ?_, ring := ?_, empty := ?_, freep := ?_ }, rfl, ?_,
    ⟨_, mem_append_right _ mem_cons_self, Nat.le_trans joined.le (Nat.le_add_left _ _)⟩,
    place.spares touched second⟩
  · rintro d (member | member)
    · rcases mem_cons.mp (perm_middle.mem_iff.mp member) with rfl | inside
      · refine ⟨low, ?_, Nat.le_add_right_of_le units, sized.trans (by rw [asized])⟩
        rw [cstop]
        exact place.joined_high joined
      · exact place.kept touched second (elsewhere d inside) (Or.inl (within d inside))
    · refine place.kept touched second (fun same => ?_) (Or.inr member)
      have apart := (place.live_apart member).1
      omega
  · refine pairwise_append.mpr ⟨sortedFront, pairwise_cons.mpr ⟨fun d member => ?_,
      joined.sorted sortedRight⟩, fun d before e after => ?_⟩
    · have gap := joined.gap sortedRight member
      unfold Before at gap ⊢
      rwa [cstop]
    · rcases mem_cons.mp after with rfl | behind
      · exact earlier d before a (mem_singleton_self a)
      · exact cross d (mem_append_left _ before) e (joined.subset behind)
  · intro d member e used
    rcases mem_cons.mp (perm_middle.mem_iff.mp member) with rfl | inside
    · have own := sound.apart a inFree e (mem_cons_of_mem _ used)
      have some := (sound.placed e (Or.inr (mem_cons_of_mem _ used))).units
      have tail := place.joined_apart joined used
      have same := joined.addr
      unfold Apart at own tail ⊢
      rw [cstop]
      rw [stop] at own
      rw [same] at tail
      simp only
      unfold Block.stop at own tail ⊢
      omega
    · exact sound.apart d (within d inside) e (mem_cons_of_mem _ used)
  · have spelled' : nodes base (l ++ ⟨a.addr, a.units + c.units⟩ :: rest) =
        front ++ a.addr :: rest.map Block.addr := by
      rw [spelled]
      simp [nodes]
    rw [spelled']
    exact Ring.rotate (joined.ring_merged place.ring onward
      (place.joined_links joined touched second))
  · refine place.empty touched second ?_
    rw [spelled]
    exact mem_cons_self
  · simp [nodes]
  · intro index
    have joint : (⟨a.addr, a.units + c.units⟩ : Block).Has index ↔ a.Has index ∨ c.Has index := by
      have same := joined.addr
      have some := joined.units place.placed.units
      unfold Block.Has
      rw [cstop, stop]
      simp only
      unfold Block.stop at stop ⊢
      omega
    have covers := joined.covers index
    simp only [has_append, exists_mem_cons_iff, not_mem_nil, false_and, exists_false,
      or_false] at covers ⊢
    rw [joint, or_assoc, covers]
    exact or_assoc.symm.trans or_left_comm

theorem free_spec {blocks : List Block} (sound : Sound base h blocks (b :: live)) :
    ∃ h' blocks', free h (b.addr + 8) = some h' ∧ Freed base h h' blocks b live blocks' := by
  obtain ⟨left, right, front, p, rfl, place⟩ := exists_place sound
  obtain ⟨c, rest, joined, sized, touched⟩ := place.joinRight
  have high := place.placed.high
  have brk := sound.brk
  have units := place.placed.units
  unfold Block.stop at high
  have result : free h (b.addr + 8) = some
      { h with mem := joinLeft (Umalloc.joinRight h.mem b.addr p) b.addr p, freep := p } := by
    simp only [free, header_eq (show b.addr + 8 < 4294967296 by omega), place.found, Option.map_some]
  rw [result]
  have before := touched.size (Or.inl place.p_lt)
  by_cases meets : plus p (size h.mem p) = b.addr
  · have joinedLeft : joinLeft (Umalloc.joinRight h.mem b.addr p) b.addr p =
        setPtr (setSize (Umalloc.joinRight h.mem b.addr p) p (size h.mem p + c.units)) p
          (ptr (Umalloc.joinRight h.mem b.addr p) b.addr) := by
      rw [joinLeft, before, if_pos meets, sized]
      simp only [touches_setSize.ptr (Or.inr place.p_lt)]
    have small : size h.mem p + c.units < 4294967296 := by
      have last := place.joined_high joined
      have first : size h.mem p ≤ h.brk := by
        rcases place.p_cases with ⟨_, rfl, _⟩ | ⟨l, a, rfl, rfl, _⟩
        · exact sound.empty ▸ Nat.zero_le _
        · obtain ⟨_, high, _, asized⟩ := sound.placed a (Or.inl (by simp))
          unfold Block.stop at high
          omega
      unfold Block.stop at last
      omega
    rw [joinedLeft]
    obtain ⟨blocks', freed⟩ := place.merge joined touched (touches_setSize.trans touches_setPtr) meets
      (by rw [size_setPtr, size_setSize small]) (ptr_setPtr (ptr_lt _ _))
    exact ⟨_, blocks', rfl, freed⟩
  · have linked : joinLeft (Umalloc.joinRight h.mem b.addr p) b.addr p =
        setPtr (Umalloc.joinRight h.mem b.addr p) p b.addr := by
      rw [joinLeft, before, if_neg meets]
    rw [linked]
    exact ⟨_, _, rfl, place.link joined sized touched meets⟩

end Place

section Carving
variable {base : Nat} {h : Heap} {blocks live : List Block} {prevp nunits : Nat}

structure Taken (base : Nat) (h h' : Heap) (blocks : List Block) (b : Block) (live : List Block)
    (blocks' : List Block) : Prop where
  sound : Sound base h' blocks' (b :: live)
  brk : h'.brk = h.brk
  covers : ∀ place, (∃ c ∈ b :: blocks', c.Has place) ↔ ∃ c ∈ blocks, c.Has place
  /-- only free blocks are written -/
  spares : ∀ place, (place < base ∨ base + 8 ≤ place) → (¬ ∃ c ∈ blocks, c.Has place) →
    h'.mem place = h.mem place

theorem Sound.nodup (sound : Sound base h blocks live) : (nodes base blocks).Nodup :=
  sound.spaced.imp fun gap same => by omega

/-- The node behind `prevp`, which is large enough, is a block of the list, and
`prevp` is the node in front of it. -/
theorem Sound.fitting (sound : Sound base h blocks live) (node : prevp ∈ nodes base blocks)
    (some : 1 ≤ nunits) (fits : nunits ≤ size h.mem (ptr h.mem prevp)) :
    ∃ left a right front, blocks = left ++ a :: right ∧ ptr h.mem prevp = a.addr ∧
      nodes base left = front ++ [prevp] := by
  have next := sound.ring.next_mem node
  rcases mem_cons.mp next with here | inside
  · rw [here, sound.empty] at fits
    omega
  obtain ⟨a, member, same⟩ := mem_map.mp inside
  obtain ⟨left, right, rfl⟩ := append_of_mem member
  have some : nodes base left ≠ [] := cons_ne_nil _ _
  refine ⟨left, a, right, (nodes base left).dropLast, rfl, same.symm, ?_⟩
  have spelled : nodes base (left ++ a :: right) =
      (nodes base left).dropLast ++ (nodes base left).getLast some :: a.addr ::
        right.map Block.addr := by
    conv_lhs => rw [nodes_append, ← dropLast_append_getLast some]
    rw [append_assoc, singleton_append, map_cons]
  have before : (nodes base left).getLast some = prevp := by
    have inList : (nodes base left).getLast some ∈ nodes base (left ++ a :: right) := by
      rw [spelled]
      exact mem_append_right _ mem_cons_self
    refine sound.ring.next_inj sound.nodup inList node ?_
    have ring := sound.ring
    rw [spelled] at ring
    exact ring.rotate.1.trans same
  rw [← before]
  exact (dropLast_append_getLast some).symm

theorem Before.apart {c d : Block} (before : Before c d) : Apart c d := Or.inl (Nat.le_of_lt before)

theorem Sound.neighbours {left right : List Block} {a : Block}
    (sound : Sound base h (left ++ a :: right) live) (member : d ∈ left ++ right) :
    Apart d a := by
  obtain ⟨_, tail, cross⟩ := pairwise_append.mp sound.sorted
  rcases mem_append.mp member with before | after
  · exact (cross d before a mem_cons_self).apart
  · exact ((pairwise_cons.mp tail).1 d after).apart.symm

/-- The header of a node is that of a block, or apart from it. -/
theorem Sound.node_apart (sound : Sound base h blocks live)
    (member : node ∈ nodes base blocks) (inside : d ∈ blocks ∨ d ∈ live) :
    d.addr = node ∨ d.addr + 8 ≤ node ∨ node + 8 ≤ d.addr := by
  have placed := sound.placed d inside
  rcases mem_cons.mp member with rfl | listed
  · exact Or.inr (Or.inr placed.low)
  obtain ⟨c, here, rfl⟩ := mem_map.mp listed
  have units := (sound.placed c (Or.inl here)).units
  rcases inside with free | used
  · by_cases same : d = c
    · exact Or.inl (same ▸ rfl)
    · have order : blocks.Pairwise Apart := sound.sorted.imp Before.apart
      exact Or.inr (headers_apart placed.units units (order.forall free here same))
  · exact Or.inr (headers_apart placed.units units (sound.apart c here d used).symm)

/-- A byte outside the free blocks and `base` is in no node's header. -/
theorem Sound.outside (sound : Sound base h blocks live) {node index : Nat}
    (member : node ∈ nodes base blocks) (low : index < base ∨ base + 8 ≤ index)
    (away : ¬ ∃ c ∈ blocks, c.Has index) : index < node ∨ node + 8 ≤ index := by
  rcases mem_cons.mp member with rfl | listed
  · exact low
  · obtain ⟨c, here, rfl⟩ := mem_map.mp listed
    have units := (sound.placed c (Or.inl here)).units
    have misses : ¬ c.Has index := fun inside => away ⟨c, here, inside⟩
    unfold Block.Has Block.stop at misses
    omega

theorem carve_exact {left right : List Block} {a : Block} {front : List Nat}
    (sound : Sound base h (left ++ a :: right) live) (spelled : nodes base left = front ++ [prevp]) :
    Taken base h { h with mem := setPtr h.mem prevp (ptr h.mem a.addr), freep := prevp }
      (left ++ a :: right) a live (left ++ right) := by
  have touched : Touches h.mem (setPtr h.mem prevp (ptr h.mem a.addr)) prevp := touches_setPtr
  have whole : nodes base (left ++ a :: right) = front ++ prevp :: a.addr :: right.map Block.addr := by
    rw [nodes_append, spelled, append_assoc, singleton_append, map_cons]
  have short : nodes base (left ++ right) = front ++ prevp :: right.map Block.addr := by
    rw [nodes_append, spelled, append_assoc, singleton_append]
  have node : prevp ∈ nodes base (left ++ a :: right) := by
    rw [whole]
    exact mem_append_right _ mem_cons_self
  have sizes : ∀ d : Block, d ∈ left ++ a :: right ∨ d ∈ live →
      size (setPtr h.mem prevp (ptr h.mem a.addr)) d.addr = size h.mem d.addr := by
    intro d inside
    rcases sound.node_apart node inside with same | apart
    · rw [same, size_setPtr]
    · exact touched.size apart
  have spaced := sound.spaced
  rw [whole] at spaced
  obtain ⟨_, tail, cross⟩ := pairwise_append.mp spaced
  have wider : ∀ d ∈ left ++ right, d ∈ left ++ a :: right := fun _ member =>
    ((sublist_cons_self a right).append_left left).subset member
  have own : a ∈ left ++ a :: right := mem_append_right _ mem_cons_self
  refine ⟨{
    brk := sound.brk, placed := ?_, sorted := ?_, liveApart := ?_, apart := ?_
    ring := ?_, empty := ?_, freep := ?_ }, rfl, ?_, ?_⟩
  · have kept : ∀ d, d ∈ left ++ a :: right ∨ d ∈ live → Placed base
        { h with mem := setPtr h.mem prevp (ptr h.mem a.addr), freep := prevp } d := by
      intro d inside
      obtain ⟨low, high, units, sized⟩ := sound.placed d inside
      exact ⟨low, high, units, (sizes d inside).trans sized⟩
    rintro d (member | member)
    · exact kept d (Or.inl (wider d member))
    · rcases mem_cons.mp member with rfl | used
      · exact kept d (Or.inl own)
      · exact kept d (Or.inr used)
  · exact sound.sorted.sublist ((sublist_cons_self a right).append_left left)
  · exact pairwise_cons.mpr ⟨sound.apart a own, sound.liveApart⟩
  · intro d member c used
    rcases mem_cons.mp used with rfl | used
    · exact sound.neighbours member
    · exact sound.apart d (wider d member) c used
  · rw [short]
    have ring := sound.ring
    rw [whole] at ring
    refine Ring.rotate (ring.rotate.remove (ptr_setPtr (ptr_lt _ _)) fun other member => ?_)
    refine touched.ptr ?_
    rcases mem_append.mp member with after | before
    · exact Or.inr ((pairwise_cons.mp tail).1 other (mem_cons_of_mem _ after))
    · exact Or.inl (cross other before prevp mem_cons_self)
  · have start : base ∈ front ++ [prevp] := by
      rw [← spelled]
      exact mem_cons_self
    rcases mem_append.mp start with before | here
    · exact (touched.size (Or.inl (cross base before prevp mem_cons_self))).trans sound.empty
    · rw [mem_singleton.mp here, size_setPtr, ← mem_singleton.mp here]
      exact sound.empty
  · rw [short]
    exact mem_append_right _ mem_cons_self
  · intro index
    rw [exists_mem_cons_iff, has_append, has_append, exists_mem_cons_iff]
    exact or_left_comm
  · intro index low away
    exact touched index (sound.outside node low away)

/-- The tail of a larger block is taken; its head stays where it is in the list. -/
theorem carve_tail {left right : List Block} {a : Block}
    (sound : Sound base h (left ++ a :: right) live) (node : prevp ∈ nodes base (left ++ a :: right))
    {keep : Nat} (more : a.units = keep + nunits) (head : 1 ≤ keep) (some : 1 ≤ nunits) :
    Taken base h { h with
        mem := setSize (setSize h.mem a.addr keep) (a.addr + 8 * keep) nunits
        freep := prevp }
      (left ++ a :: right) ⟨a.addr + 8 * keep, nunits⟩ live (left ++ ⟨a.addr, keep⟩ :: right) := by
  have own : a ∈ left ++ a :: right := mem_append_right _ mem_cons_self
  obtain ⟨low, high, _, _⟩ := sound.placed a (Or.inl own)
  have brk := sound.brk
  have first : Touches h.mem (setSize h.mem a.addr keep) a.addr := touches_setSize
  have second : Touches (setSize h.mem a.addr keep)
      (setSize (setSize h.mem a.addr keep) (a.addr + 8 * keep) nunits) (a.addr + 8 * keep) :=
    touches_setSize
  have small : keep < 4294967296 ∧ nunits < 4294967296 := by
    unfold Block.stop at high
    omega
  have same : nodes base (left ++ ⟨a.addr, keep⟩ :: right) = nodes base (left ++ a :: right) := by
    simp [nodes]
  have wider : ∀ d ∈ left ++ right, d ∈ left ++ a :: right := fun _ member =>
    ((sublist_cons_self a right).append_left left).subset member
  -- both headers lie in the old block
  have kept : ∀ d : Block, Placed base h d → Apart d a → Placed base { h with
        mem := setSize (setSize h.mem a.addr keep) (a.addr + 8 * keep) nunits
        freep := prevp } d := by
    rintro d ⟨low, high, units, sized⟩ apart
    unfold Apart Block.stop at apart
    refine ⟨low, high, units, ?_⟩
    rw [second.size (by omega), first.size (by omega), sized]
  obtain ⟨sortedLeft, tail, cross⟩ := pairwise_append.mp sound.sorted
  obtain ⟨after, sortedRight⟩ := pairwise_cons.mp tail
  refine ⟨{
    brk, placed := ?_, sorted := ?_, liveApart := ?_, apart := ?_, ring := ?_
    empty := ?_, freep := ?_ }, rfl, ?_, ?_⟩
  · rintro d (member | member)
    · rcases mem_cons.mp (perm_middle.mem_iff.mp member) with rfl | inside
      · refine ⟨low, ?_, head, ?_⟩
        · unfold Block.stop at high ⊢
          simp only
          omega
        · simp only
          rw [second.size (by omega), size_setSize small.1]
      · exact kept d (sound.placed d (Or.inl (wider d inside))) (sound.neighbours inside)
    · rcases mem_cons.mp member with rfl | used
      · refine ⟨by simp only; omega, ?_, some, size_setSize small.2⟩
        unfold Block.stop at high ⊢
        simp only
        omega
      · exact kept d (sound.placed d (Or.inr used)) (sound.apart a own d used).symm
  · refine pairwise_append.mpr ⟨sortedLeft, pairwise_cons.mpr ⟨fun d behind => ?_,
      sortedRight⟩, fun d before e behind => ?_⟩
    · have gap : a.stop < d.addr := after d behind
      unfold Before
      unfold Block.stop at gap ⊢
      simp only
      omega
    · rcases mem_cons.mp behind with rfl | behind
      · exact cross d before a mem_cons_self
      · exact cross d before e (mem_cons_of_mem _ behind)
  · refine pairwise_cons.mpr ⟨fun d used => ?_, sound.liveApart⟩
    have units := (sound.placed d (Or.inr used)).units
    have apart := sound.apart a own d used
    unfold Apart Block.stop at apart ⊢
    simp only
    omega
  · intro d member c used
    have apartFrom : ∀ e : Block, 1 ≤ e.units → Apart e a →
        Apart e ⟨a.addr, keep⟩ ∧ Apart e ⟨a.addr + 8 * keep, nunits⟩ := by
      intro e units apart
      unfold Apart Block.stop at apart ⊢
      simp only
      omega
    rcases mem_cons.mp (perm_middle.mem_iff.mp member) with rfl | inside
    · rcases mem_cons.mp used with rfl | used
      · exact Or.inl (Nat.le_refl _)
      · exact (apartFrom c (sound.placed c (Or.inr used)).units
          (sound.apart a own c used).symm).1.symm
    · rcases mem_cons.mp used with rfl | used
      · exact (apartFrom d (sound.placed d (Or.inl (wider d inside))).units
          (sound.neighbours inside)).2
      · exact sound.apart d (wider d inside) c used
  · rw [same]
    refine sound.ring.congr fun other member => ?_
    have away : other = a.addr ∨ (other + 8 ≤ a.addr ∨ a.stop ≤ other) := by
      rcases mem_cons.mp member with rfl | listed
      · exact Or.inr (Or.inl low)
      · obtain ⟨d, inside, rfl⟩ := mem_map.mp listed
        by_cases here : d = a
        · exact Or.inl (here ▸ rfl)
        · have order : (left ++ a :: right).Pairwise Apart := sound.sorted.imp Before.apart
          have apart := order.forall inside own here
          have units := (sound.placed d (Or.inl inside)).units
          unfold Apart Block.stop at apart
          unfold Block.stop
          omega
    rcases away with rfl | apart
    · rw [second.ptr (by omega), ptr_setSize]
    · unfold Block.stop at apart
      rw [second.ptr (by omega), first.ptr (by omega)]
  · rw [second.size (by omega), first.size (by omega)]
    exact sound.empty
  · rw [same]
    exact node
  · intro index
    have joint : a.Has index ↔
        (⟨a.addr, keep⟩ : Block).Has index ∨ (⟨a.addr + 8 * keep, nunits⟩ : Block).Has index := by
      unfold Block.Has Block.stop
      simp only
      omega
    simp only [has_append, exists_mem_cons_iff, joint]
    exact or_left_comm.trans (or_congr_right (or_left_comm.trans or_assoc.symm))
  · intro index _ away
    have misses : ¬ a.Has index := fun inside => away ⟨a, own, inside⟩
    unfold Block.Has Block.stop at misses
    exact (second index (by omega)).trans (first index (by omega))

theorem carve_spec (sound : Sound base h blocks live) (node : prevp ∈ nodes base blocks)
    (some : 1 ≤ nunits) (fits : nunits ≤ size h.mem (ptr h.mem prevp)) :
    ∃ h' b blocks', carve h prevp (ptr h.mem prevp) nunits = (h', b.addr + 8) ∧
      b.units = nunits ∧ Taken base h h' blocks b live blocks' := by
  obtain ⟨left, a, right, front, rfl, next, spelled⟩ := sound.fitting node some fits
  have own : a ∈ left ++ a :: right := mem_append_right _ mem_cons_self
  obtain ⟨_, high, _, sized⟩ := sound.placed a (Or.inl own)
  have brk := sound.brk
  unfold Block.stop at high
  rw [next, sized] at fits
  unfold carve
  rw [next, sized]
  by_cases whole : a.units = nunits
  · refine ⟨_, a, left ++ right, ?_, whole, carve_exact sound spelled⟩
    rw [if_pos whole, plus_eq (by omega)]
  · have kept : size (setSize h.mem a.addr (a.units - nunits)) a.addr = a.units - nunits :=
      size_setSize (by omega)
    refine ⟨_, ⟨a.addr + 8 * (a.units - nunits), nunits⟩, left ++ ⟨a.addr, a.units - nunits⟩ :: right,
      ?_, rfl, carve_tail sound node (by omega) (by omega) some⟩
    rw [if_neg whole]
    simp only [kept]
    rw [plus_eq (show a.addr + 8 * (a.units - nunits) < 4294967296 by omega), plus_eq (by omega)]

end Carving

end OsProjects.Umalloc
