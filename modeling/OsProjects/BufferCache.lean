import Mathlib.Data.List.Perm.Subperm
import Mathlib.Data.Fintype.Card
import OsProjects.ByteStore
import OsProjects.DoublyLinked
import OsProjects.Runs

/-!
The buffer cache of `bio.c`: thirty buffers on a doubly linked list, `bget` that
searches the list and recycles a buffer from its end, and `brelse` that moves a
buffer to the front. Processes come and go between the critical sections. The
results: one buffer at most caches a block, whoever has the buffer sees the last
data that was stored for the block, data leaves the cache only when the disk has
it, and the buffer that is recycled is the one that was released longest ago.
-/

namespace OsProjects.BufferCache

open List
open Function
open Runs ByteStore Rings DoublyLinked

abbrev nbuf : Nat := 30

abbrev Key := UInt32 × UInt32

/-- `struct buf`; `owner` is the process that has the sleep lock. -/
structure Buf (Process : Type) where
  valid : Bool
  dirty : Bool
  key : Key
  refcnt : Nat
  data : Bytes
  owner : Option Process

inductive Node where
  | head
  | buf (index : Fin nbuf)
  deriving DecidableEq

inductive Phase where
  /-- in `acquiresleep` -/
  | waiting
  | holding
  /-- in `brelse`, behind `releasesleep` -/
  | leaving
  deriving DecidableEq

/-- A call of `bget` that has found its buffer, until `brelse` is through. -/
structure Use (Process : Type) where
  process : Process
  buf : Fin nbuf
  key : Key
  phase : Phase
  deriving DecidableEq

structure System (Process : Type) where
  buf : Fin nbuf → Buf Process
  links : Links Node
  disk : Key → Bytes
  uses : List (Use Process)

section Functions
variable {Process : Type} [DecidableEq Process] (s : System Process)

def System.set (b : Fin nbuf) (buf : Buf Process) : System Process :=
  { s with buf := update s.buf b buf }

def stops (test : Buf Process → Bool) : Node → Bool
  | .head => true
  | .buf b => test (s.buf b)

def scan (along : Node → Node) (test : Buf Process → Bool) : Option Node :=
  walk along (stops s test) (nbuf + 1) (along .head)

def unused (buf : Buf Process) : Bool := buf.refcnt == 0 && !buf.dirty

/-- The list part of `bget`; nothing is a panic. -/
def bget (key : Key) : Option (System Process × Fin nbuf) :=
  match scan s s.links.next fun buf => buf.key == key with
  | some (.buf b) => some (s.set b { s.buf b with refcnt := (s.buf b).refcnt + 1 }, b)
  | _ =>
    match scan s s.links.prev unused with
    | some (.buf b) =>
      some (s.set b { s.buf b with key := key, valid := false, dirty := false, refcnt := 1 }, b)
    | _ => none

def iderw (b : Fin nbuf) : System Process :=
  let buf := s.buf b
  if buf.dirty then
    { s.set b { buf with valid := true, dirty := false } with
      disk := update s.disk buf.key buf.data }
  else s.set b { buf with valid := true, data := s.disk buf.key }

def bwrite (b : Fin nbuf) : System Process :=
  iderw (s.set b { s.buf b with dirty := true }) b

def putBack (b : Fin nbuf) : System Process :=
  let s := s.set b { s.buf b with refcnt := (s.buf b).refcnt - 1 }
  if (s.buf b).refcnt = 0 then { s with links := (s.links.unlink (.buf b)).insert .head (.buf b) }
  else s

def binit (links : Links Node) (disk : Key → Bytes) (data : Fin nbuf → Bytes) : System Process where
  buf b := ⟨false, false, (0, 0), 0, data b, none⟩
  links := (finRange nbuf).foldl (fun links b => links.insert .head (.buf b))
    ⟨update links.next .head .head, update links.prev .head .head⟩
  disk := disk
  uses := []

def System.turn (u : Use Process) (phase : Phase) : System Process :=
  { s with uses := { u with phase := phase } :: s.uses.erase u }

end Functions

section Steps
variable {Process : Type}

inductive Event (Process : Type) where
  /-- `bget` up to `acquiresleep` -/
  | bget (process : Process) (key : Key)
  /-- `acquiresleep` returns -/
  | acquire (u : Use Process)
  /-- `bread` reads a block that is not yet valid -/
  | fill (u : Use Process)
  /-- the caller of `bread` changes the data -/
  | store (u : Use Process) (data : Bytes)
  /-- `log_write` -/
  | pin (u : Use Process)
  | bwrite (u : Use Process)
  /-- `brelse` up to `releasesleep` -/
  | release (u : Use Process)
  /-- the rest of `brelse` -/
  | brelse (u : Use Process)

variable [DecidableEq Process] (s : System Process)

def getBuffer (process : Process) (key : Key) : System Process :=
  match bget s key with
  | some (s', b) => { s' with uses := ⟨process, b, key, .waiting⟩ :: s'.uses }
  | none => s

def step : Event Process → System Process
  | .bget process key => getBuffer s process key
  | .acquire u => (s.set u.buf { s.buf u.buf with owner := some u.process }).turn u .holding
  | .fill u => if (s.buf u.buf).valid then s else iderw s u.buf
  | .store u data => s.set u.buf { s.buf u.buf with data := data }
  | .pin u => s.set u.buf { s.buf u.buf with dirty := true }
  | .bwrite u => bwrite s u.buf
  | .release u => (s.set u.buf { s.buf u.buf with owner := none }).turn u .leaving
  | .brelse u => { putBack s u.buf with uses := s.uses.erase u }

def Holds (u : Use Process) : Prop :=
  u ∈ s.uses ∧ u.phase = .holding ∧ (s.buf u.buf).valid = true

instance (u : Use Process) : Decidable (Holds s u) := inferInstanceAs (Decidable (_ ∧ _))

/-- Blocks of device 0 are not used; a process waits for the lock, and works on a
buffer after `bread` has returned it. -/
def Possible : Event Process → Prop
  | .bget _ key => key.1 ≠ 0
  | .acquire u => u ∈ s.uses ∧ u.phase = .waiting ∧ (s.buf u.buf).owner = none
  | .fill u => u ∈ s.uses ∧ u.phase = .holding
  | .store u _ => Holds s u
  | .pin u => Holds s u
  | .bwrite u => Holds s u
  | .release u => Holds s u
  | .brelse u => u ∈ s.uses ∧ u.phase = .leaving

instance : (event : Event Process) → Decidable (Possible s event)
  | .bget _ key => inferInstanceAs (Decidable (key.1 ≠ 0))
  | .acquire u =>
    inferInstanceAs (Decidable (u ∈ s.uses ∧ u.phase = .waiting ∧ (s.buf u.buf).owner = none))
  | .fill u => inferInstanceAs (Decidable (u ∈ s.uses ∧ u.phase = .holding))
  | .store u _ => inferInstanceAs (Decidable (Holds s u))
  | .pin u => inferInstanceAs (Decidable (Holds s u))
  | .bwrite u => inferInstanceAs (Decidable (Holds s u))
  | .release u => inferInstanceAs (Decidable (Holds s u))
  | .brelse u => inferInstanceAs (Decidable (u ∈ s.uses ∧ u.phase = .leaving))

/-- What the cache is for: the last data stored for each block. Beside it, whether a
buffer was stored to after the last `log_write` or `bwrite` of it, and the buffers in
the order of their last release, the latest first. -/
structure Past where
  content : Key → Bytes
  unsaved : Fin nbuf → Bool
  released : List (Fin nbuf)

def Past.start (disk : Key → Bytes) : Past := ⟨disk, fun _ => false, []⟩

def Past.record (event : Event Process) (past : Past) : Past :=
  match event with
  | .store u data =>
    { past with
      content := update past.content u.key data
      unsaved := update past.unsaved u.buf true }
  | .pin u => { past with unsaved := update past.unsaved u.buf false }
  | .bwrite u => { past with unsaved := update past.unsaved u.buf false }
  | .brelse u =>
    if (s.buf u.buf).refcnt = 1 then { past with released := u.buf :: past.released } else past
  | _ => past

def Past.Saves (past : Past) : Event Process → Prop
  | .release u => past.unsaved u.buf = false
  | _ => True

instance (past : Past) : (event : Event Process) → Decidable (past.Saves event)
  | .release u => inferInstanceAs (Decidable (past.unsaved u.buf = false))
  | .bget _ _ | .acquire _ | .fill _ | .store _ _ | .pin _ | .bwrite _ | .brelse _ => isTrue trivial

def Careful (state : System Process × Past) (event : Event Process) : Prop :=
  Possible state.1 event ∧ state.2.Saves event

instance (state : System Process × Past) (event : Event Process) : Decidable (Careful state event) :=
  inferInstanceAs (Decidable (_ ∧ _))

end Steps

section Lists
variable {Process : Type} {s : System Process} {order : List (Fin nbuf)}

structure Listed (links : Links Node) (order : List (Fin nbuf)) : Prop where
  linked : Linked links (.head :: order.map .buf)
  all : ∀ b, b ∈ order

theorem Listed.distinct {links : Links Node} (listed : Listed links order) : order.Nodup :=
  List.Nodup.of_map _ (nodup_cons.mp listed.linked.distinct).2

theorem Listed.count {links : Links Node} (listed : Listed links order) : order.length ≤ nbuf := by
  have few := List.Nodup.length_le_card listed.distinct
  rwa [Fintype.card_fin] at few

theorem find?_stops (test : Buf Process → Bool) (order : List (Fin nbuf)) :
    (order.map Node.buf ++ [Node.head]).find? (stops s test) =
      some ((order.find? fun b => test (s.buf b)).elim .head .buf) := by
  induction order with
  | nil => rfl
  | cons b rest ih =>
    rw [map_cons, cons_append, find?_cons, find?_cons, ih]
    by_cases here : test (s.buf b) = true
    · simp [stops, here]
    · simp [stops, here]

theorem scan_eq {along : Node → Node} (ring : Ring along (.head :: order.map .buf))
    (few : order.length ≤ nbuf) (test : Buf Process → Bool) :
    scan s along test = some ((order.find? fun b => test (s.buf b)).elim .head .buf) := by
  cases order with
  | nil =>
    have back : along .head = .head := ring
    simp [scan, back, walk, stops]
  | cons b rest =>
    have turned : Ring along (.buf b :: (rest.map .buf ++ [.head])) :=
      @Ring.rotate _ _ [Node.head] (Node.buf b :: rest.map Node.buf) ring
    have first : along .head = .buf b := ring.1
    have halts : ∃ node ∈ Node.buf b :: (rest.map .buf ++ [.head]), stops s test node = true :=
      ⟨.head, by simp, rfl⟩
    have short : (rest.map Node.buf ++ [Node.head]).length < nbuf + 1 := by
      rw [length_append, length_map]
      exact Nat.lt_succ_of_le few
    rw [scan, first, walk_path turned short halts]
    exact find?_stops test (b :: rest)

/-- What the two loops of `bget` find, in terms of the list. -/
theorem bget_cases (listed : Listed s.links order) (key : Key) :
    (∃ b, order.find? (fun b => (s.buf b).key == key) = some b ∧
        bget s key = some (s.set b { s.buf b with refcnt := (s.buf b).refcnt + 1 }, b)) ∨
      (order.find? (fun b => (s.buf b).key == key) = none ∧
        ((∃ b, order.reverse.find? (fun b => unused (s.buf b)) = some b ∧
            bget s key = some (s.set b { s.buf b with
              key := key, valid := false, dirty := false, refcnt := 1 }, b)) ∨
          order.reverse.find? (fun b => unused (s.buf b)) = none ∧ bget s key = none)) := by
  have forth := scan_eq (s := s) listed.linked.ring listed.count fun buf => buf.key == key
  have back : Ring s.links.prev (.head :: order.reverse.map .buf) := by
    rw [map_reverse]
    exact listed.linked.reverse
  have back := scan_eq (s := s) back (by simpa using listed.count) unused
  unfold bget
  rw [forth, back]
  cases order.find? fun b => (s.buf b).key == key with
  | some b => exact Or.inl ⟨b, rfl, rfl⟩
  | none =>
    refine Or.inr ⟨rfl, ?_⟩
    cases order.reverse.find? fun b => unused (s.buf b) with
    | some b => exact Or.inl ⟨b, rfl, rfl⟩
    | none => exact Or.inr ⟨rfl, rfl⟩

theorem Listed.toFront {links : Links Node} (listed : Listed links order) (b : Fin nbuf) :
    Listed ((links.unlink (.buf b)).insert .head (.buf b)) (b :: order.erase b) := by
  obtain ⟨front, back, fresh, split, rest⟩ := exists_erase_eq (listed.all b)
  have linked := listed.linked
  rw [split, map_append, map_cons, ← cons_append] at linked
  have out : Linked (links.unlink (.buf b)) (.head :: (order.erase b).map .buf) := by
    rw [rest, map_append, ← cons_append]
    exact linked.unlink (by simp)
  refine ⟨out.insert ?_, fun c => ?_⟩
  · have gone : b ∉ order.erase b := listed.distinct.not_mem_erase
    simpa using gone
  · by_cases same : c = b
    · rw [same]
      exact mem_cons_self
    · exact mem_cons_of_mem _ ((mem_erase_of_ne same).mpr (listed.all c))

theorem listed_binit (links : Links Node) (disk : Key → Bytes) (data : Fin nbuf → Bytes) :
    Listed (binit links disk data : System Process).links (finRange nbuf).reverse := by
  have built : ∀ (rest done : List (Fin nbuf)) (links : Links Node), (rest ++ done).Nodup →
      Linked links (.head :: done.map .buf) →
      Linked (rest.foldl (fun links b => links.insert .head (.buf b)) links)
        (.head :: (rest.reverse ++ done).map .buf) := by
    intro rest
    induction rest with
    | nil => exact fun _ _ _ linked => linked
    | cons b rest ih =>
      intro done links distinct linked
      have fresh : Node.buf b ∉ Node.head :: done.map .buf := by
        simpa using fun here => (nodup_cons.mp distinct).1 (mem_append_right _ here)
      rw [reverse_cons, append_assoc]
      exact ih (b :: done) _ (nodup_middle.mpr distinct) (linked.insert fresh)
  refine ⟨?_, by simp⟩
  have empty : Linked ⟨update links.next .head .head, update links.prev .head .head⟩
      [Node.head] := ⟨by simp [Rings.Ring, Rings.Path], nodup_singleton _, by simp⟩
  have linked := built (finRange nbuf) [] _ (by simpa using nodup_finRange nbuf) empty
  rwa [append_nil] at linked

end Lists

section Data
variable {Process : Type} {buf : Fin nbuf → Buf Process} {unsaved : Fin nbuf → Bool}
  {disk content : Key → Bytes}

def Settled (buf : Buf Process) (unsaved : Bool) : Prop :=
  buf.valid = false ∨ (buf.dirty = false ∧ unsaved = false)

structure Coherent (buf : Fin nbuf → Buf Process) (unsaved : Fin nbuf → Bool)
    (disk content : Key → Bytes) : Prop where
  /-- buffers that were never used still have the device number 0 -/
  named : ∀ b, (buf b).key.1 = 0 →
    (buf b).refcnt = 0 ∧ (buf b).valid = false ∧ (buf b).dirty = false
  unique : ∀ b c, (buf b).key.1 ≠ 0 → (buf b).key = (buf c).key → b = c
  fresh : ∀ b, (buf b).valid = true → (buf b).data = content (buf b).key
  dirty : ∀ b, (buf b).dirty = true → (buf b).valid = true
  owned : ∀ b, unsaved b = true → (buf b).owner ≠ none
  saved : ∀ key, (∀ b, (buf b).key = key → Settled (buf b) (unsaved b)) → disk key = content key

/-- The disk has the data of a block whose only buffer is settled. -/
theorem Coherent.onDisk (coherent : Coherent buf unsaved disk content) {b : Fin nbuf}
    (real : (buf b).key.1 ≠ 0) (settled : Settled (buf b) (unsaved b)) :
    disk (buf b).key = content (buf b).key := by
  refine coherent.saved _ fun c same => ?_
  rw [← coherent.unique b c real same.symm]
  exact settled

theorem update_field {Process α : Type} {buf : Fin nbuf → Buf Process} {b : Fin nbuf}
    {new : Buf Process} (field : Buf Process → α) (same : field new = field (buf b))
    (c : Fin nbuf) : field (update buf b new c) = field (buf c) :=
  (forall_update_iff buf fun c now => field now = field (buf c)).mpr ⟨same, fun _ _ => rfl⟩ c

section
variable (coherent : Coherent buf unsaved disk content) {b : Fin nbuf} {new : Buf Process}
include coherent

/-- A buffer changes and goes on to cache the same block. -/
theorem Coherent.set {unsaved' : Fin nbuf → Bool} {disk' content' : Key → Bytes}
    (used : (buf b).key.1 ≠ 0) (key : new.key = (buf b).key)
    (fresh : new.valid = true → new.data = content' new.key)
    (dirty : new.dirty = true → new.valid = true) (owned : unsaved' b = true → new.owner ≠ none)
    (saved : Settled new (unsaved' b) → disk' new.key = content' new.key)
    (flags : ∀ c ≠ b, unsaved' c = unsaved c)
    (others : ∀ other ≠ (buf b).key, disk' other = disk other ∧ content' other = content other) :
    Coherent (update buf b new) unsaved' disk' content' := by
  have keys : ∀ c, (update buf b new c).key = (buf c).key := update_field (·.key) key
  constructor
  case named =>
    intro c zero
    rw [keys] at zero
    rw [update_of_ne]
    · exact coherent.named c zero
    · rintro rfl
      exact used zero
  case unique =>
    intro c d real same
    rw [keys] at real same
    rw [keys] at same
    exact coherent.unique c d real same
  case fresh =>
    refine (forall_update_iff buf
      fun _ now => now.valid = true → now.data = content' now.key).mpr ⟨fresh, fun c same valid => ?_⟩
    rw [coherent.fresh c valid, (others _ _).2]
    exact fun clash => same (coherent.unique b c used clash.symm).symm
  case dirty =>
    exact (forall_update_iff buf fun _ now => now.dirty = true → now.valid = true).mpr
      ⟨dirty, fun c _ => coherent.dirty c⟩
  case owned =>
    refine (forall_update_iff buf
      fun c now => unsaved' c = true → now.owner ≠ none).mpr ⟨owned, fun c same => ?_⟩
    rw [flags c same]
    exact coherent.owned c
  case saved =>
    intro other settled
    by_cases here : other = (buf b).key
    · have now := settled b (by rw [keys, here])
      rw [update_self] at now
      rw [here, ← key]
      exact saved now
    · rw [(others other here).1, (others other here).2]
      refine coherent.saved other fun c same => ?_
      have apart : c ≠ b := by
        rintro rfl
        exact here same.symm
      have now := settled c (by rw [keys, same])
      rwa [update_of_ne apart, flags c apart] at now

/-- A change that the data has no part in. -/
theorem Coherent.keep (used : (buf b).key.1 ≠ 0) (key : new.key = (buf b).key)
    (valid : new.valid = (buf b).valid) (dirty : new.dirty = (buf b).dirty)
    (data : new.data = (buf b).data) (owned : unsaved b = true → new.owner ≠ none) :
    Coherent (update buf b new) unsaved disk content := by
  refine coherent.set used key ?_ ?_ owned (fun settled => ?_) (fun _ _ => rfl)
    fun _ _ => ⟨rfl, rfl⟩
  · rw [valid, data, key]
    exact coherent.fresh b
  · rw [valid, dirty]
    exact coherent.dirty b
  · rw [Settled, valid, dirty] at settled
    rw [key]
    exact coherent.onDisk used settled

/-- A buffer that is settled is given to a block that is not cached. -/
theorem Coherent.recycle (settled : Settled (buf b) (unsaved b))
    (absent : ∀ c, (buf c).key ≠ new.key) (real : new.key.1 ≠ 0) (invalid : new.valid = false)
    (clean : new.dirty = false) (owner : new.owner = (buf b).owner) :
    Coherent (update buf b new) unsaved disk content := by
  constructor
  case named =>
    exact (forall_update_iff buf fun _ now => now.key.1 = 0 →
      now.refcnt = 0 ∧ now.valid = false ∧ now.dirty = false).mpr
      ⟨fun zero => absurd zero real, fun c _ => coherent.named c⟩
  case unique =>
    intro c d nonzero same
    by_cases first : c = b
    · by_cases second : d = b
      · rw [first, second]
      · rw [first, update_self, update_of_ne second] at same
        exact absurd same.symm (absent d)
    · rw [update_of_ne first] at nonzero same
      by_cases second : d = b
      · rw [second, update_self] at same
        exact absurd same (absent c)
      · rw [update_of_ne second] at same
        exact coherent.unique c d nonzero same
  case fresh =>
    exact (forall_update_iff buf fun _ now => now.valid = true → now.data = content now.key).mpr
      ⟨fun valid => by simp [invalid] at valid, fun c _ => coherent.fresh c⟩
  case dirty =>
    exact (forall_update_iff buf fun _ now => now.dirty = true → now.valid = true).mpr
      ⟨fun pinned => by simp [clean] at pinned, fun c _ => coherent.dirty c⟩
  case owned =>
    intro c
    rw [update_field (·.owner) owner c]
    exact coherent.owned c
  case saved =>
    intro other all
    refine coherent.saved other fun c old => ?_
    by_cases same : c = b
    · rw [same]
      exact settled
    · have now := all c
      rw [update_of_ne same] at now
      exact now old
end

end Data

section Counts
variable {Process : Type}

structure Counted (buf : Fin nbuf → Buf Process) (uses : List (Use Process)) : Prop where
  refcnt : ∀ b, (buf b).refcnt = uses.countP fun u => u.buf = b
  locked : ∀ b, (uses.countP fun u => u.buf = b ∧ u.phase = .holding) =
    (buf b).owner.toList.length
  owner : ∀ u ∈ uses, u.phase = .holding → (buf u.buf).owner = some u.process
  key : ∀ u ∈ uses, (buf u.buf).key = u.key

variable {buf : Fin nbuf → Buf Process} {uses : List (Use Process)}

section
variable (counted : Counted buf uses)
include counted

theorem Counted.free {b : Fin nbuf} (zero : (buf b).refcnt = 0) :
    (buf b).owner = none := by
  rw [counted.refcnt, countP_eq_zero] at zero
  have none : (buf b).owner.toList.length = 0 := by
    rw [← counted.locked, countP_eq_zero]
    intro u here both
    exact zero u here (by simpa using (of_decide_eq_true both).1)
  simpa using none

theorem Counted.positive {u : Use Process} (member : u ∈ uses) :
    0 < (buf u.buf).refcnt := by
  rw [counted.refcnt, countP_pos_iff]
  exact ⟨u, member, by simp⟩

/-- A buffer changes, but not its block, its lock or its uses. -/
theorem Counted.set {b : Fin nbuf} {new : Buf Process}
    (key : new.key = (buf b).key) (refcnt : new.refcnt = (buf b).refcnt)
    (owner : new.owner = (buf b).owner) : Counted (update buf b new) uses := by
  refine {
    refcnt := fun c => ?_, locked := fun c => ?_, owner := fun u here holding => ?_
    key := fun u here => ?_ }
  · rw [update_field (·.refcnt) refcnt c, counted.refcnt]
  · rw [update_field (·.owner) owner c, counted.locked]
  · rw [update_field (·.owner) owner u.buf, counted.owner u here holding]
  · rw [update_field (·.key) key u.buf, counted.key u here]

/-- `bget` adds a use; the buffer goes on to cache its block or has had no use. -/
theorem Counted.add {b : Fin nbuf} {new : Buf Process}
    {process : Process} (key : new.key = (buf b).key ∨ (buf b).refcnt = 0)
    (refcnt : new.refcnt = (buf b).refcnt + 1) (owner : new.owner = (buf b).owner) :
    Counted (update buf b new) (⟨process, b, new.key, .waiting⟩ :: uses) := by
  refine {
    refcnt := fun c => ?_, locked := fun c => ?_, owner := fun u here holding => ?_
    key := fun u here => ?_ }
  · by_cases same : c = b
    · subst same
      simp [refcnt, counted.refcnt]
    · simp [same, Ne.symm same, counted.refcnt]
  · rw [update_field (·.owner) owner c]
    simpa using counted.locked c
  · rcases mem_cons.mp here with rfl | here
    · cases holding
    · rw [update_field (·.owner) owner u.buf, counted.owner u here holding]
  · rcases mem_cons.mp here with rfl | here
    · rw [update_self]
    · have old := counted.key u here
      by_cases same : u.buf = b
      · have used := counted.positive here
        rw [same] at old used ⊢
        rw [update_self, key.resolve_right (Nat.ne_of_gt used), old]
      · rw [update_of_ne same, old]

theorem Counted.perm {uses' : List (Use Process)}
    (perm : uses.Perm uses') : Counted buf uses' :=
  ⟨fun b => (counted.refcnt b).trans (perm.countP_eq _),
    fun b => (perm.countP_eq _).symm.trans (counted.locked b),
    fun u here => counted.owner u (perm.mem_iff.mpr here),
    fun u here => counted.key u (perm.mem_iff.mpr here)⟩
end

/-- The use of the lock's owner is the only one in its phase. -/
theorem Counted.alone {u : Use Process} (counted : Counted buf (u :: uses))
    (holding : u.phase = .holding) : ∀ v ∈ uses, v.buf = u.buf → v.phase ≠ .holding := by
  intro v here same other
  have one := counted.locked u.buf
  rw [counted.owner u mem_cons_self holding, countP_cons_of_pos (by simp [holding])] at one
  have none : (uses.countP fun v => v.buf = u.buf ∧ v.phase = .holding) = 0 := by
    simpa using one
  exact (countP_eq_zero.mp none) v here (by simp [same, other])

/-- A use goes on to another phase and the lock's owner changes with it. -/
theorem Counted.turn {u : Use Process} (counted : Counted buf (u :: uses)) {phase : Phase}
    {owner : Option Process} (idle : ∀ v ∈ uses, v.buf = u.buf → v.phase ≠ .holding)
    (owns : owner = if phase = .holding then some u.process else none) :
    Counted (update buf u.buf { buf u.buf with owner := owner })
      ({ u with phase := phase } :: uses) := by
  refine {
    refcnt := fun b => ?_, locked := fun b => ?_, owner := fun v here holding => ?_
    key := fun v here => ?_ }
  · have old := counted.refcnt b
    by_cases same : b = u.buf
    · subst same
      simpa using old
    · rw [update_of_ne same, old, countP_cons, countP_cons]
  · by_cases same : b = u.buf
    · subst same
      have none : (uses.countP fun v => v.buf = u.buf ∧ v.phase = .holding) = 0 := by
        rw [countP_eq_zero]
        intro v here both
        exact idle v here (of_decide_eq_true both).1 (of_decide_eq_true both).2
      rw [update_self, countP_cons, none, owns]
      by_cases holding : phase = .holding <;> simp [holding]
    · have old := counted.locked b
      rw [update_of_ne same, ← old, countP_cons, countP_cons]
      simp [Ne.symm same]
  · rcases mem_cons.mp here with rfl | here
    · have now : phase = .holding := holding
      rw [update_self, owns, if_pos now]
    · rw [update_of_ne fun same => idle v here same holding]
      exact counted.owner v (mem_cons_of_mem _ here) holding
  · have old : (buf v.buf).key = v.key := by
      rcases mem_cons.mp here with rfl | here
      · exact counted.key u mem_cons_self
      · exact counted.key v (mem_cons_of_mem _ here)
    exact (update_field (·.key) (by rfl) v.buf).trans old

theorem Counted.drop {u : Use Process} (counted : Counted buf (u :: uses))
    (leaving : u.phase = .leaving) :
    Counted (update buf u.buf { buf u.buf with refcnt := (buf u.buf).refcnt - 1 }) uses := by
  have owners : ∀ c, (update buf u.buf { buf u.buf with refcnt := (buf u.buf).refcnt - 1 }
      c).owner = (buf c).owner := update_field (·.owner) (by rfl)
  refine {
    refcnt := fun b => ?_, locked := fun b => ?_, owner := fun v here holding => ?_
    key := fun v here => ?_ }
  · have old := counted.refcnt b
    by_cases same : b = u.buf
    · subst same
      rw [update_self, old, countP_cons_of_pos (by simp), Nat.add_sub_cancel]
    · rw [update_of_ne same, old, countP_cons_of_neg (by simpa using Ne.symm same)]
  · have old := counted.locked b
    rw [countP_cons_of_neg (by simp [leaving])] at old
    rw [old, owners]
  · rw [owners, counted.owner v (mem_cons_of_mem _ here) holding]
  · exact (update_field (·.key) (by rfl) v.buf).trans (counted.key v (mem_cons_of_mem _ here))

end Counts

section Invariant
variable {Process : Type} {s : System Process} {past : Past}

structure Kept (s : System Process) (released : List (Fin nbuf)) : Prop where
  /-- the list has the buffers in the order of their last release -/
  listed : ∃ order, Listed s.links order ∧
    order.Pairwise fun b c => released.idxOf b ≤ released.idxOf c
  counted : Counted s.buf s.uses

def Current (s : System Process) (past : Past) : Prop :=
  Coherent s.buf past.unsaved s.disk past.content

theorem kept_binit (links : Links Node) (disk : Key → Bytes) (data : Fin nbuf → Bytes) :
    Kept (binit links disk data : System Process) [] where
  listed := ⟨_, listed_binit links disk data, pairwise_of_forall fun _ _ => Nat.le_refl _⟩
  counted :=
    ⟨fun _ => rfl, fun _ => rfl, (fun _ here => by cases here), fun _ here => by cases here⟩

theorem current_binit (links : Links Node) (disk : Key → Bytes) (data : Fin nbuf → Bytes) :
    Current (binit links disk data : System Process) (Past.start disk) where
  named _ _ := ⟨rfl, rfl, rfl⟩
  unique _ _ nonzero := absurd rfl nonzero
  fresh _ valid := by cases valid
  dirty _ dirty := by cases dirty
  owned _ unsaved := by cases unsaved
  saved _ _ := rfl

theorem unused_iff {buf : Buf Process} :
    unused buf = true ↔ buf.refcnt = 0 ∧ buf.dirty = false := by
  simp [unused]

section Uses
variable {released : List (Fin nbuf)} (kept : Kept s released)
include kept

theorem Kept.bget (process : Process) (key : Key) : Kept (getBuffer s process key) released := by
  obtain ⟨order, listed, sorted⟩ := kept.listed
  unfold getBuffer
  rcases bget_cases listed key with ⟨b, found, result⟩ | ⟨absent, ⟨b, found, result⟩ | ⟨_, result⟩⟩
  · have hit : (s.buf b).key = key := by simpa using find?_some found
    have added : Counted (update s.buf b { s.buf b with refcnt := (s.buf b).refcnt + 1 })
        (⟨process, b, (s.buf b).key, .waiting⟩ :: s.uses) :=
      kept.counted.add (Or.inl rfl) rfl rfl
    rw [hit] at added
    rw [result]
    exact ⟨⟨order, listed, sorted⟩, added⟩
  · have free : unused (s.buf b) = true := by simpa using find?_some found
    have zero := (unused_iff.mp free).1
    have added : Counted (update s.buf b { s.buf b with
          key := key, valid := false, dirty := false, refcnt := 1 })
        (⟨process, b, key, .waiting⟩ :: s.uses) :=
      kept.counted.add (Or.inr zero) (by rw [zero]) rfl
    rw [result]
    exact ⟨⟨order, listed, sorted⟩, added⟩
  · rw [result]
    exact kept

theorem Kept.iderw (b : Fin nbuf) : Kept (BufferCache.iderw s b) released := by
  rw [BufferCache.iderw]
  by_cases dirty : (s.buf b).dirty = true
  · rw [if_pos dirty]
    exact ⟨kept.listed, kept.counted.set rfl rfl rfl⟩
  · rw [if_neg dirty]
    exact ⟨kept.listed, kept.counted.set rfl rfl rfl⟩

variable [DecidableEq Process]

theorem Kept.acquire {u : Use Process} (member : u ∈ s.uses) (free : (s.buf u.buf).owner = none) :
    Kept ((s.set u.buf { s.buf u.buf with owner := some u.process }).turn u .holding) released := by
  have idle : ∀ v ∈ s.uses.erase u, v.buf = u.buf → v.phase ≠ .holding := by
    intro v here same holding
    have owner := kept.counted.owner v (mem_of_mem_erase here) holding
    rw [same, free] at owner
    cases owner
  exact ⟨kept.listed, (kept.counted.perm (perm_cons_erase member)).turn idle rfl⟩

theorem Kept.release {u : Use Process} (member : u ∈ s.uses) (holding : u.phase = .holding) :
    Kept ((s.set u.buf { s.buf u.buf with owner := none }).turn u .leaving) released := by
  have counted := kept.counted.perm (perm_cons_erase member)
  exact ⟨kept.listed, counted.turn (counted.alone holding) rfl⟩

end Uses

section Contents
variable {released : List (Fin nbuf)} (current : Current s past) (kept : Kept s released)
include current kept

theorem Current.real {u : Use Process} (member : u ∈ s.uses) : (s.buf u.buf).key.1 ≠ 0 := by
  intro zero
  have used := kept.counted.positive member
  rw [(current.named _ zero).1] at used
  exact Nat.lt_irrefl 0 used

theorem Current.bget {key : Key} (real : key.1 ≠ 0) (process : Process) :
    Current (getBuffer s process key) past := by
  obtain ⟨order, listed, _⟩ := kept.listed
  unfold getBuffer
  rcases bget_cases listed key with ⟨b, found, result⟩ | ⟨absent, ⟨b, found, result⟩ | ⟨_, result⟩⟩
  · have hit : (s.buf b).key = key := by simpa using find?_some found
    rw [result]
    exact Coherent.keep current (by rwa [hit]) rfl rfl rfl rfl (current.owned b)
  · have free : unused (s.buf b) = true := by simpa using find?_some found
    obtain ⟨zero, clean⟩ := unused_iff.mp free
    have fresh : ∀ c, (s.buf c).key ≠ key := by
      intro c
      simpa using find?_eq_none.mp absent c (listed.all c)
    -- nobody has the lock of a buffer without a use, so every store to it was saved
    have saved : past.unsaved b = false := by
      by_contra unsaved
      exact current.owned b (by simpa using unsaved) (kept.counted.free zero)
    rw [result]
    exact Coherent.recycle current (Or.inr ⟨clean, saved⟩) fresh real rfl rfl rfl
  · rw [result]
    exact current

theorem Current.fill {u : Use Process} (member : u ∈ s.uses)
    (invalid : (s.buf u.buf).valid = false) : Current (iderw s u.buf) past := by
  have real := current.real kept member
  have clean : (s.buf u.buf).dirty = false := by
    by_contra dirty
    have valid := current.dirty _ (by simpa using dirty)
    rw [invalid] at valid
    cases valid
  have same : s.disk (s.buf u.buf).key = past.content (s.buf u.buf).key :=
    Coherent.onDisk current real (Or.inl invalid)
  have result : iderw s u.buf =
      s.set u.buf { s.buf u.buf with valid := true, data := s.disk (s.buf u.buf).key } := by
    rw [iderw]
    exact if_neg (by simp [clean])
  rw [result]
  exact Coherent.set current real rfl (fun _ => same) (fun _ => rfl) (current.owned u.buf)
    (fun _ => same) (fun _ _ => rfl) fun _ _ => ⟨rfl, rfl⟩

theorem Current.store {u : Use Process} (holds : Holds s u) (data : Bytes) :
    Current (s.set u.buf { s.buf u.buf with data := data }) (past.record s (.store u data)) := by
  obtain ⟨member, holding, valid⟩ := holds
  have key := kept.counted.key u member
  refine Coherent.set current (current.real kept member) rfl (fun _ => ?_) (fun _ => valid)
    (fun _ => ?_) (fun settled => ?_) (fun c apart => update_of_ne apart ..)
    fun other differ => ⟨rfl, ?_⟩
  · change data = update past.content u.key data (s.buf u.buf).key
    rw [key, update_self]
  · change (s.buf u.buf).owner ≠ none
    rw [kept.counted.owner u member holding]
    exact Option.some_ne_none _
  · rcases settled with invalid | ⟨_, saved⟩
    · rw [valid] at invalid
      cases invalid
    · have flag : update past.unsaved u.buf true u.buf = false := saved
      rw [update_self] at flag
      cases flag
  · rw [key] at differ
    exact update_of_ne differ data past.content

theorem Current.pin {u : Use Process} (holds : Holds s u) :
    Current (s.set u.buf { s.buf u.buf with dirty := true }) (past.record s (.pin u)) := by
  obtain ⟨member, _, valid⟩ := holds
  refine Coherent.set current (current.real kept member) rfl (current.fresh _) (fun _ => valid)
    (fun unsaved => ?_) (fun settled => ?_) (fun c apart => update_of_ne apart ..)
    fun _ _ => ⟨rfl, rfl⟩
  · have flag : update past.unsaved u.buf false u.buf = true := unsaved
    rw [update_self] at flag
    cases flag
  · rcases settled with invalid | ⟨clean, _⟩
    · rw [valid] at invalid
      cases invalid
    · cases clean

theorem Current.bwrite {u : Use Process} (holds : Holds s u) :
    Current (BufferCache.bwrite s u.buf) (past.record s (.bwrite u)) := by
  obtain ⟨member, _, valid⟩ := holds
  have last := current.fresh _ valid
  have result : BufferCache.bwrite s u.buf =
      { s.set u.buf { s.buf u.buf with valid := true, dirty := false } with
        disk := update s.disk (s.buf u.buf).key (s.buf u.buf).data } := by
    simp only [BufferCache.bwrite, iderw, System.set, update_self, if_true, update_idem]
  rw [result]
  refine Coherent.set current (current.real kept member) rfl (fun _ => last) (fun _ => rfl)
    (fun unsaved => ?_) (fun _ => (update_self ..).trans last)
    (fun c apart => update_of_ne apart ..)
    fun other differ => ⟨update_of_ne differ .., rfl⟩
  have flag : update past.unsaved u.buf false u.buf = true := unsaved
  rw [update_self] at flag
  cases flag

theorem Current.brelse {u : Use Process} (member : u ∈ s.uses) :
    Current (putBack s u.buf) (past.record s (.brelse u)) := by
  have dropped : Current (s.set u.buf { s.buf u.buf with refcnt := (s.buf u.buf).refcnt - 1 }) past :=
    Coherent.keep current (current.real kept member) rfl rfl rfl rfl (current.owned u.buf)
  have noted : (past.record s (.brelse u)).unsaved = past.unsaved ∧
      (past.record s (.brelse u)).content = past.content := by
    unfold Past.record
    dsimp only
    split <;> exact ⟨rfl, rfl⟩
  have stays : ∀ links, Current { s.set u.buf { s.buf u.buf with
      refcnt := (s.buf u.buf).refcnt - 1 } with links := links } (past.record s (.brelse u)) := by
    intro links
    rw [Current, noted.1, noted.2]
    exact dropped
  rw [putBack]
  dsimp only
  split
  · exact stays _
  · exact stays s.links

end Contents

theorem sorted_toFront {order released : List (Fin nbuf)} (b : Fin nbuf) (distinct : order.Nodup)
    (sorted : order.Pairwise fun c d => released.idxOf c ≤ released.idxOf d) :
    (b :: order.erase b).Pairwise fun c d => (b :: released).idxOf c ≤ (b :: released).idxOf d := by
  refine pairwise_cons.mpr ⟨fun c _ => ?_, ?_⟩
  · rw [idxOf_cons_self]
    exact Nat.zero_le _
  · refine (sorted.sublist erase_sublist).imp_of_mem fun {c d} first second before => ?_
    have apart : ∀ c ∈ order.erase b, b ≠ c := by
      rintro c here rfl
      exact distinct.not_mem_erase here
    rw [idxOf_cons_ne _ (apart c first), idxOf_cons_ne _ (apart d second)]
    exact Nat.succ_le_succ before

variable [DecidableEq Process]

theorem Kept.brelse (kept : Kept s past.released) {u : Use Process} (member : u ∈ s.uses)
    (leaving : u.phase = .leaving) :
    Kept { putBack s u.buf with uses := s.uses.erase u } (past.record s (.brelse u)).released := by
  have counted := (kept.counted.perm (perm_cons_erase member)).drop leaving
  have used := kept.counted.positive member
  obtain ⟨order, listed, sorted⟩ := kept.listed
  by_cases last : (s.buf u.buf).refcnt = 1
  · have moved : putBack s u.buf =
        { s.set u.buf { s.buf u.buf with refcnt := (s.buf u.buf).refcnt - 1 } with
          links := (s.links.unlink (.buf u.buf)).insert .head (.buf u.buf) } := by
      rw [putBack]
      exact if_pos (by simp [System.set, last])
    have noted : past.record s (.brelse u) = { past with released := u.buf :: past.released } :=
      if_pos last
    rw [moved, noted]
    exact ⟨⟨_, listed.toFront u.buf, sorted_toFront u.buf listed.distinct sorted⟩, counted⟩
  · have stays : putBack s u.buf =
        s.set u.buf { s.buf u.buf with refcnt := (s.buf u.buf).refcnt - 1 } := by
      rw [putBack]
      refine if_neg ?_
      simp only [System.set, update_self]
      omega
    have noted : past.record s (.brelse u) = past := if_neg last
    rw [stays, noted]
    exact ⟨⟨order, listed, sorted⟩, counted⟩

theorem Kept.step (kept : Kept s past.released) {event : Event Process}
    (possible : Possible s event) :
    Kept (BufferCache.step s event) (past.record s event).released := by
  cases event with
  | bget process key => exact kept.bget process key
  | acquire u => exact kept.acquire possible.1 possible.2.2
  | fill u =>
    by_cases valid : (s.buf u.buf).valid = true
    · rw [BufferCache.step, if_pos valid]
      exact kept
    · rw [BufferCache.step, if_neg valid]
      exact kept.iderw u.buf
  | store | pin => exact ⟨kept.listed, kept.counted.set rfl rfl rfl⟩
  | bwrite u =>
    have pinned : Kept (s.set u.buf { s.buf u.buf with dirty := true }) past.released :=
      ⟨kept.listed, kept.counted.set rfl rfl rfl⟩
    exact pinned.iderw u.buf
  | release u => exact kept.release possible.1 possible.2.1
  | brelse u => exact kept.brelse possible.1 possible.2

theorem Current.step (current : Current s past) (kept : Kept s past.released)
    {event : Event Process} (careful : Careful (s, past) event) :
    Current (BufferCache.step s event) (past.record s event) := by
  obtain ⟨possible, saves⟩ := careful
  cases event with
  | bget process key => exact current.bget kept possible process
  | acquire u =>
    exact Coherent.keep current (current.real kept possible.1) rfl rfl rfl rfl
      fun _ => Option.some_ne_none _
  | fill u =>
    by_cases valid : (s.buf u.buf).valid = true
    · rw [BufferCache.step, if_pos valid]
      exact current
    · rw [BufferCache.step, if_neg valid]
      exact current.fill kept possible.1 (by simpa using valid)
  | store u data => exact current.store kept possible data
  | pin u => exact current.pin kept possible
  | bwrite u => exact current.bwrite kept possible
  | release u =>
    refine Coherent.keep current (current.real kept possible.1) rfl rfl rfl rfl fun unsaved => ?_
    rw [show past.unsaved u.buf = false from saves] at unsaved
    cases unsaved
  | brelse u => exact current.brelse kept possible.1

end Invariant

section Results
variable {Process : Type} [DecidableEq Process]

def history (links : Links Node) (disk : Key → Bytes) (data : Fin nbuf → Bytes)
    (events : List (Event Process)) : System Process × Past :=
  run (recorded step Past.record) (binit links disk data, Past.start disk) events

theorem kept_history {links : Links Node} {disk : Key → Bytes} {data : Fin nbuf → Bytes}
    {events : List (Event Process)}
    (possible : Allowed step Possible (binit links disk data) events) :
    Kept (history links disk data events).1 (history links disk data events).2.released :=
  invariant (fun state : System Process × Past => Kept state.1 state.2.released)
    (kept_binit links disk data) (fun _ _ kept possible => kept.step possible)
    (allowed_recorded.mpr possible)

theorem current_history {links : Links Node} {disk : Key → Bytes} {data : Fin nbuf → Bytes}
    {events : List (Event Process)} (careful : Allowed (recorded step Past.record) Careful
      (binit links disk data, Past.start disk) events) :
    Kept (history links disk data events).1 (history links disk data events).2.released ∧
      Current (history links disk data events).1 (history links disk data events).2 :=
  invariant (fun state : System Process × Past => Kept state.1 state.2.released ∧
      Current state.1 state.2)
    ⟨kept_binit links disk data, current_binit links disk data⟩
    (fun _ _ both careful => ⟨both.1.step careful.1, both.2.step both.1 careful⟩) careful

/-- In every interleaving of processes that call `log_write` or `bwrite` for what they
store before they release a buffer, one buffer at most caches a block, a process that
works on a buffer is alone with it and sees the last data stored for the block it
asked for, and the disk has that data too unless a process works on the block or the
log has yet to write it; a buffer with nothing unsaved is dirty or has the data of the
disk. -/
theorem cached_blocks_are_current (links : Links Node) (disk : Key → Bytes)
    (data : Fin nbuf → Bytes) (events : List (Event Process))
    (careful : Allowed (recorded step Past.record) Careful
      (binit links disk data, Past.start disk) events) : let s := (history links disk data events).1
    let past := (history links disk data events).2
    (∀ b c, (s.buf b).key.1 ≠ 0 → (s.buf b).key = (s.buf c).key → b = c) ∧
      (∀ u, Holds s u → (s.buf u.buf).key = u.key ∧ (s.buf u.buf).data = past.content u.key ∧
        (s.uses.countP fun v => v.buf = u.buf ∧ v.phase = .holding) = 1) ∧
      (∀ key, (∀ b, (s.buf b).key = key → (s.buf b).dirty = false ∧ (s.buf b).owner = none) →
        s.disk key = past.content key) ∧
      ∀ b, (s.buf b).valid = true → past.unsaved b = false →
        (s.buf b).dirty = true ∨ (s.buf b).data = s.disk (s.buf b).key := by
  intro s past
  have both : Kept s past.released ∧ Current s past := current_history careful
  obtain ⟨kept, current⟩ := both
  refine ⟨current.unique, fun u holds => ?_, fun key settled => ?_, fun b valid saved => ?_⟩
  · obtain ⟨member, holding, valid⟩ := holds
    have key := kept.counted.key u member
    refine ⟨key, ?_, ?_⟩
    · rw [← key]
      exact current.fresh _ valid
    · rw [kept.counted.locked, kept.counted.owner u member holding]
      rfl
  · refine current.saved key fun b same => Or.inr ⟨(settled b same).1, ?_⟩
    by_contra unsaved
    exact current.owned b (by simpa using unsaved) (settled b same).2
  · by_cases dirty : (s.buf b).dirty = true
    · exact Or.inl dirty
    · have real : (s.buf b).key.1 ≠ 0 := by
        intro zero
        rw [(current.named b zero).2.1] at valid
        cases valid
      have same : s.disk (s.buf b).key = past.content (s.buf b).key :=
        Coherent.onDisk current real (Or.inr ⟨by simpa using dirty, saved⟩)
      exact Or.inr ((current.fresh b valid).trans same.symm)

def handOver : List (Event Bool) :=
  let mine : Use Bool := ⟨true, 0, (1, 5), .waiting⟩
  let held := { mine with phase := .holding }
  [.bget true (1, 5), .acquire mine, .fill held, .store held fun _ => 7, .pin held,
    .bget false (1, 5), .release held, .acquire ⟨false, 0, (1, 5), .waiting⟩,
    .brelse { mine with phase := .leaving }]

def reader : Use Bool := ⟨false, 0, (1, 5), .holding⟩

def unlinked : Links Node := ⟨fun _ => .head, fun _ => .head⟩

def handedOver : System Bool × Past := history unlinked (fun _ _ => 0) (fun _ _ => 0) handOver

theorem next_reader_sees_the_store :
    (handedOver.1.buf reader.buf).data = handedOver.2.content reader.key ∧
      handedOver.2.content reader.key 3 = 7 := by
  have current := cached_blocks_are_current unlinked (fun _ _ => 0) (fun _ _ => 0) handOver
    (by decide +kernel)
  rw [← handedOver] at current
  exact ⟨(current.2.1 reader (by decide +kernel)).2.1, by decide +kernel⟩

/-- In every interleaving the list runs through all buffers, and `bget` returns the
buffer of the block or, when no buffer has it, the unused one that was released
longest ago; it panics only when every buffer is used or waits for the log. -/
theorem bget_recycles_least_recently_released (links : Links Node) (disk : Key → Bytes)
    (data : Fin nbuf → Bytes) (events : List (Event Process))
    (possible : Allowed step Possible (binit links disk data) events) (key : Key) :
    let s := (history links disk data events).1
    let released := (history links disk data events).2.released
    (∃ order, Listed s.links order) ∧ (∀ s' b, bget s key = some (s', b) → (s.buf b).key = key ∨
        (∀ c, (s.buf c).key ≠ key) ∧ unused (s.buf b) = true ∧
          ∀ c, unused (s.buf c) = true → released.idxOf c ≤ released.idxOf b) ∧
      (bget s key = none ↔ ∀ c, (s.buf c).key ≠ key ∧ unused (s.buf c) = false) := by
  intro s released
  have kept : Kept s released := kept_history possible
  obtain ⟨order, listed, sorted⟩ := kept.listed
  refine ⟨⟨order, listed⟩, ?_⟩
  rcases bget_cases listed key with ⟨b, found, result⟩ | ⟨absent, found⟩
  · have hit : (s.buf b).key = key := by simpa using find?_some found
    rw [result]
    refine ⟨fun s' c same => ?_, iff_of_false (fun wrong => by cases wrong) fun none => ?_⟩
    · cases same
      exact Or.inl hit
    · exact (none b).1 hit
  · have fresh : ∀ c, (s.buf c).key ≠ key := by
      intro c
      simpa using find?_eq_none.mp absent c (listed.all c)
    rcases found with ⟨b, found, result⟩ | ⟨none, result⟩
    · have free : unused (s.buf b) = true := by simpa using find?_some found
      rw [result]
      refine ⟨fun s' c same => ?_, iff_of_false (fun wrong => by cases wrong) fun none => ?_⟩
      · cases same
        refine Or.inr ⟨fresh, free, fun c other => ?_⟩
        -- what stands before `b` as seen from the end of the list is not unused
        obtain ⟨_, front, back, split, before⟩ := find?_eq_some_iff_append.mp found
        have sorted := pairwise_reverse.mpr sorted
        rw [split] at sorted
        have member : c ∈ front ++ b :: back := by
          rw [← split]
          exact mem_reverse.mpr (listed.all c)
        rcases mem_append.mp member with first | later
        · have taken := before c first
          simp [other] at taken
        · rcases mem_cons.mp later with rfl | later
          · exact Nat.le_refl _
          · exact (pairwise_cons.mp (pairwise_append.mp sorted).2.1).1 c later
      · rw [(none b).2] at free
        cases free
    · rw [result]
      refine ⟨(fun _ _ wrong => by cases wrong), iff_of_true rfl fun c => ⟨fresh c, ?_⟩⟩
      simpa using find?_eq_none.mp none c (mem_reverse.mpr (listed.all c))

def readBlock (b : Fin nbuf) (key : Key) : List (Event Bool) :=
  [.bget true key, .acquire ⟨true, b, key, .waiting⟩, .fill ⟨true, b, key, .holding⟩,
    .release ⟨true, b, key, .holding⟩, .brelse ⟨true, b, key, .leaving⟩]

/-- Two blocks are read, the first of them once more, and all other buffers are asked
for. -/
def turns : List (Event Bool) :=
  readBlock 0 (1, 5) ++ readBlock 1 (1, 6) ++ readBlock 0 (1, 5) ++
    (range 28).map fun n => .bget false (1, 10 + UInt32.ofNat n)

def turned : System Bool × Past := history unlinked (fun _ _ => 0) (fun _ _ => 0) turns

theorem older_release_is_recycled :
    (bget turned.1 (1, 9)).map Prod.snd = some 1 ∧ unused (turned.1.buf 0) = true ∧
      turned.2.released.idxOf 0 ≤ turned.2.released.idxOf 1 := by
  have ends : (bget turned.1 (1, 9)).map Prod.snd = some 1 ∧ unused (turned.1.buf 0) = true ∧
      (turned.1.buf 1).key ≠ (1, 9) := by decide +kernel
  obtain ⟨recycled, free, other⟩ := ends
  refine ⟨recycled, free, ?_⟩
  obtain ⟨⟨s', b⟩, result, rfl⟩ := Option.map_eq_some_iff.mp recycled
  have recycles := bget_recycles_least_recently_released unlinked (fun _ _ => 0) (fun _ _ => 0)
    turns (by decide +kernel) (1, 9)
  rw [← turned] at recycles
  exact ((recycles.2.1 s' _ result).resolve_left other).2.2 0 free

end Results

end OsProjects.BufferCache
