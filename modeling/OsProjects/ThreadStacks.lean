import OsProjects.CloneStacks
import OsProjects.ProcessGrowth
import OsProjects.ThreadFamilies

/-!
`thread_create` and `thread_join` (`ulib.c` in `xv6-thread.patch`) over the
process table and the memories of the address spaces. The stack of a thread is a
page inside a block from `malloc`, and the word below the page holds the address
of the block. `thread_join` finds that word through the stack pointer with which
the thread exited. Each function is cut at its system call, so other processes
run in between. The answers of `malloc` are arguments. Beside the memories the
world keeps the block of every thread, and what was taken from `malloc` and given
to `free`.
-/

namespace OsProjects.ThreadStacks

open Runs ByteStore ThreadTable ThreadOutcomes PageTables CloneStacks ThreadFamilies Function

def stackOf (block : UInt32) : UInt32 := pgroundup (block + 4)

abbrev Place := Addr × UInt32

/-- Where a process is in `thread_create` or `thread_join`: before `clone`, or
behind `join`, with the pid and the page it gave. The block of the thread that
was collected is kept for the statements only. -/
inductive Busy where
  | creating (block : UInt32)
  | joined (pid space : UInt32) (block : Option UInt32)

structure World where
  kernel : Kernel
  mem : Addr → Bytes
  busy : Slot → Option Busy
  /-- the block of the thread in a slot -/
  blocks : Slot → Option UInt32
  /-- blocks that `malloc` gave to `thread_create`, those not freed yet, and the calls of `free` -/
  given : List Place
  live : List Place
  frees : List Place

namespace World

def pgdir (w : World) (cur : Slot) : Addr := (w.kernel.proc cur).pgdir

def setBusy (w : World) (cur : Slot) (busy : Option Busy) : World :=
  { w with busy := update w.busy cur busy }

def setMem (w : World) (pgdir : Addr) (bytes : Bytes) : World :=
  { w with mem := update w.mem pgdir bytes }

def malloc (w : World) (place : Place) : World :=
  { w with given := w.given ++ [place], live := place :: w.live }

def free (w : World) (place : Place) : World :=
  { w with live := w.live.erase place, frees := w.frees ++ [place] }

def call (w : World) (call : Call) : World :=
  { w with
    kernel := ThreadTable.step w.kernel call, blocks := forget w.kernel call w.blocks }
end World

def threadCreateBlock (w : World) (cur : Slot) (block : UInt32) : World :=
  if block = 0 then w
  else
    let bytes := putWord (w.mem (w.pgdir cur)) (stackOf block - 4).toNat block
    ((w.malloc (w.pgdir cur, block)).setMem (w.pgdir cur) bytes).setBusy cur
      (some (.creating block))

def cloneCall (k : Kernel) (bytes : Bytes) (cur : Slot) (f arg1 arg2 stack : UInt32)
    (kstack : Addr) : Ret × Kernel × Bytes :=
  let sz := (k.proc cur).sz
  if Pointer sz arg1 ∧ Pointer sz arg2 ∧ Pointer sz stack ∧ Pointer sz f
  then CloneStacks.clone k bytes cur arg1 arg2 stack kstack else (.fail, k, bytes)

def threadCreateClone (w : World) (cur : Slot) (f arg1 arg2 : UInt32) (kstack : Addr) : World :=
  match w.busy cur with
  | some (.creating block) =>
    let (ret, kernel, bytes) :=
      cloneCall w.kernel (w.mem (w.pgdir cur)) cur f arg1 arg2 (stackOf block) kstack
    let after := ({ w with kernel }.setMem (w.pgdir cur) bytes).setBusy cur none
    match ret with
    | .value pid =>
      -- the slot that `clone` took has the thread now
      let blocks :=
        match (allocproc w.kernel kstack).1 with
        | some p => update w.blocks p (some block)
        | none => w.blocks
      let after := { after with blocks }
      if pid = 0xffffffff then after.free (w.pgdir cur, block) else after
    | _ => after.free (w.pgdir cur, block)
  | _ => w

/-- The call of `join` in `thread_join`. If it sleeps, it is made again later. -/
def threadJoinCall (w : World) (cur : Slot) : World :=
  let after := w.call (.join cur)
  match join w.kernel cur with
  | (.value pid, some space, _) =>
    if pid = 0xffffffff then after
    else
      let block := (collected w.kernel (.join cur)).bind w.blocks
      after.setBusy cur (some (.joined pid space block))
  | _ => after

def threadJoinFree (w : World) (cur : Slot) : World :=
  match w.busy cur with
  | some (.joined _ space _) =>
    let block := wordAt (w.mem (w.pgdir cur)) (space - 4).toNat
    (w.free (w.pgdir cur, block)).setBusy cur none
  | _ => w

inductive Event where
  /-- a process enters the kernel with this stack pointer -/
  | trap (cur : Slot) (esp : UInt32)
  | grow (cur : Slot) (sz : UInt32)
  | write (cur : Slot) (addr : Nat) (byte : UInt8)
  | createBlock (cur : Slot) (block : UInt32)
  | createClone (cur : Slot) (f arg1 arg2 : UInt32) (kstack : Addr)
  | joinCall (cur : Slot)
  | joinFree (cur : Slot)
  /-- `fork`, `exec` and `wait`; a new address space holds `image` -/
  | call (call : Call) (image : Bytes)
  | exit (cur : Slot)

def step (w : World) : Event → World
  | .trap cur esp => { w with kernel := w.kernel.set cur { w.kernel.proc cur with esp } }
  | .grow cur sz => { w with kernel := ProcessGrowth.setSizes w.kernel cur sz }
  | .write cur addr byte =>
    w.setMem (w.pgdir cur) (update (w.mem (w.pgdir cur)) addr byte)
  | .createBlock cur block => threadCreateBlock w cur block
  | .createClone cur f arg1 arg2 kstack => threadCreateClone w cur f arg1 arg2 kstack
  | .joinCall cur => threadJoinCall w cur
  | .joinFree cur => threadJoinFree w cur
  | .call call image =>
    { w.call call with mem := fun pgdir => if pgdir ∈ call.dirs then image else w.mem pgdir }
  | .exit cur => (w.call (.exit cur)).setBusy cur none

def start (pgdir kstack : Addr) (mem : Addr → Bytes) : World :=
  ⟨boot pgdir kstack, mem, fun _ => none, fun _ => none, [], [], []⟩

def CanRun (w : World) (cur : Slot) : Prop :=
  (w.kernel.proc cur).state = .runnable ∨ (w.kernel.proc cur).state = .running

def Apart (b c : UInt32) : Prop :=
  b.toNat + 8196 ≤ c.toNat ∨ c.toNat + 8196 ≤ b.toNat

theorem Apart.symm {b c : UInt32} (apart : Apart b c) : Apart c b := Or.symm apart

def OnStack (block : UInt32) (addr : Nat) : Prop :=
  (stackOf block).toNat ≤ addr ∧ addr < (stackOf block).toNat + 4096

abbrev Holder := Slot ⊕ Slot

def Holder.slot : Holder → Slot
  | .inl p => p
  | .inr p => p

def World.held (w : World) : Holder → Option UInt32
  | .inl p => w.blocks p
  | .inr p =>
    match w.busy p with
    | some (.creating block) => some block
    | some (.joined _ _ block) => block
    | none => none

/-- `malloc` gives blocks that end below `2^32` and are apart from those not yet
freed; processes write into blocks of threads only on their own stack page, and
threads exit with the stack pointer there. New page directories are fresh, and
there are pids left. -/
def Possible (w : World) : Event → Prop
  | .trap cur _ => CanRun w cur
  | .grow cur _ => CanRun w cur
  | .write cur addr _ => CanRun w cur ∧ ∀ holder block, w.held holder = some block →
      w.pgdir holder.slot = w.pgdir cur → block.toNat ≤ addr → addr < block.toNat + 8196 →
      holder = .inl cur ∧ OnStack block addr
  | .createBlock cur block => CanRun w cur ∧ w.busy cur = none ∧
      (block ≠ 0 → block.toNat + 8196 ≤ 4294967296 ∧
        ∀ other, (w.pgdir cur, other) ∈ w.live → Apart block other)
  | .createClone cur _ _ _ kstack => CanRun w cur ∧ PidLeft w.kernel (.clone cur 0 kstack)
  | .joinCall cur => CanRun w cur ∧ w.busy cur = none
  | .joinFree cur => CanRun w cur
  | .call call _ => CanCall w.kernel call ∧ FreshDir w.kernel call ∧ PidLeft w.kernel call ∧
      w.busy call.cur = none ∧ (∀ cur stack kstack, call ≠ .clone cur stack kstack) ∧
      (∀ cur, call ≠ .join cur ∧ call ≠ .exit cur)
  | .exit cur => CanCall w.kernel (.exit cur) ∧
      ∀ block, w.blocks cur = some block → OnStack block (w.kernel.proc cur).esp.toNat

def Right (w : World) (event : Event) : Prop :=
  match event with
  | .createBlock cur block => (step w event).frees = w.frees ∧
      (block ≠ 0 → (step w event).busy cur = some (.creating block) ∧
        block.toNat + 4 ≤ (stackOf block).toNat ∧
        (stackOf block).toNat + 4096 ≤ block.toNat + 8196)
  | .createClone cur _ _ _ _ => ∀ block, w.busy cur = some (.creating block) →
      (∃ p, ¬ InUse w.kernel p ∧ InUse (step w event).kernel p ∧
          (step w event).blocks p = some block ∧ (step w event).frees = w.frees) ∨
        ((∀ p, InUse (step w event).kernel p ↔ InUse w.kernel p) ∧
          (step w event).frees = w.frees ++ [(w.pgdir cur, block)])
  | .joinCall cur => (step w event).frees = w.frees ∧
      ∀ p, collected w.kernel (.join cur) = some p → ∃ block space, w.blocks p = some block ∧
        (step w event).busy cur = some (.joined (w.kernel.proc p).pid space (some block))
  | .joinFree cur => ∀ pid space block, w.busy cur = some (.joined pid space block) →
      ∃ b, block = some b ∧ (w.pgdir cur, b) ∈ w.live ∧
        (step w event).frees = w.frees ++ [(w.pgdir cur, b)] ∧
        (w.pgdir cur, b) ∉ (step w event).live
  | _ => (step w event).frees = w.frees

section Layout
variable {block : UInt32}

section
variable (fits : block.toNat + 8196 ≤ 4294967296)
include fits

theorem stackOf_toNat :
    (stackOf block).toNat = (block.toNat + 4099) / 4096 * 4096 := by
  have first : (block + 4 + 4095).toNat = block.toNat + 4099 := by
    simp only [UInt32.toNat_add, UInt32.reduceToNat]
    omega
  have below : (block + 4 + 4095) % 4096 ≤ block + 4 + 4095 := by
    rw [UInt32.le_iff_toNat_le, UInt32.toNat_mod]
    exact Nat.mod_le _ _
  rw [stackOf, pgroundup, pgrounddown, UInt32.toNat_sub_of_le _ _ below, UInt32.toNat_mod, first]
  simp only [UInt32.reduceToNat]
  omega

theorem stackOf_inside :
    block.toNat + 4 ≤ (stackOf block).toNat ∧
      (stackOf block).toNat + 4096 ≤ block.toNat + 8196 := by
  rw [stackOf_toNat fits]
  omega

theorem stackOf_sub :
    (stackOf block - 4).toNat = (stackOf block).toNat - 4 := by
  have := stackOf_inside fits
  exact UInt32.toNat_sub_of_le _ _ (UInt32.le_iff_toNat_le.mpr
    (show 4 ≤ (stackOf block).toNat by omega))

theorem pgrounddown_onStack {esp : UInt32}
    (inside : OnStack block esp.toNat) : pgrounddown esp = stackOf block := by
  have below : esp % 4096 ≤ esp := by
    rw [UInt32.le_iff_toNat_le, UInt32.toNat_mod]
    exact Nat.mod_le _ _
  unfold OnStack at inside
  rw [stackOf_toNat fits] at inside
  rw [← UInt32.toNat_inj, pgrounddown, UInt32.toNat_sub_of_le _ _ below, UInt32.toNat_mod,
    stackOf_toNat fits]
  simp only [UInt32.reduceToNat]
  omega
end

end Layout

section Kernel
variable {k : Kernel} {call : Call} {p : Slot}

/-- Who stays in an address space through a call, and who has exited after it. -/
theorem step_stays (canCall : CanCall k call) (used : InUse k p) (stays : leaver k call ≠ some p) :
    InUse (ThreadTable.step k call) p ∧
      ((ThreadTable.step k call).proc p).pgdir = (k.proc p).pgdir ∧
      (((ThreadTable.step k call).proc p).state = .zombie →
        (k.proc p).state = .zombie ∨ call = .exit p) := by
  have alike : Alike (k.proc p) ((ThreadTable.step k call).proc p) →
      InUse (ThreadTable.step k call) p ∧
        ((ThreadTable.step k call).proc p).pgdir = (k.proc p).pgdir ∧
        (((ThreadTable.step k call).proc p).state = .zombie →
          (k.proc p).state = .zombie ∨ call = .exit p) := fun same =>
    ⟨same.inUse_iff.mpr used, same.pgdir, fun zombie => .inl (same.zombie.mp zombie)⟩
  cases step_outcome canCall with
  | quiet _ _ _ same _ _ => exact alike (same p)
  | spoiled q _ _ _ _ _ _ free _ _ others _ _ | created q _ _ _ free _ _ _ _ others _ _ =>
    exact alike (others p fun here => used (here ▸ free))
  | exited leaves self others _ same _ _ =>
    refine ⟨?_, (same p).2.1, fun zombie => ?_⟩
    · by_cases here : p = call.cur
      · rw [InUse, here, self]
        decide
      · exact (not_congr (others p here).1).mpr used
    · by_cases here : p = call.cur
      · exact .inr (here ▸ leaves)
      · exact .inl ((others p here).2.mp zombie)
  | collected q _ found _ how _ others _ _ =>
    have left := AddressSpaces.leaver_of_collected found (how.imp (fun h => h.1) fun h => h.1)
    exact alike (others p fun here => stays (here ▸ left))
  | replaced _ isExec _ others _ _ =>
    refine alike (others p fun here => stays ?_)
    obtain ⟨sz, sp, isExec⟩ := isExec
    rw [isExec, here]
    rfl

@[simp] theorem wakeup1_esp (k : Kernel) (chan : Option Slot) (i : Slot) :
    ((wakeup1 k chan).proc i).esp = (k.proc i).esp := by
  simp only [wakeup1]
  split <;> rfl

@[simp] theorem reparent_esp (k : Kernel) (cur i : Slot) :
    ((reparent k cur).proc i).esp = (k.proc i).esp := by
  simp only [reparent]
  split <;> rfl

@[simp] theorem exit_esp (k : Kernel) (cur i : Slot) :
    ((exit k cur).proc i).esp = (k.proc i).esp := by
  unfold exit
  by_cases here : i = cur
  · subst here
    dsimp only
    split <;> simp
  · dsimp only
    split <;> simp [here]

theorem deliver_proc (k : Kernel) (ret : Ret) : (deliver k ret).proc = k.proc := by
  cases ret <;> rfl

theorem sleep_esp (k : Kernel) (cur i : Slot) : ((sleep k cur).proc i).esp = (k.proc i).esp := by
  by_cases here : i = cur
  · simp [sleep, here]
  · simp [sleep, here]

/-- A call changes the saved stack pointer of no other process. -/
theorem step_esp (used : InUse k p) (other : p ≠ call.cur) :
    ((ThreadTable.step k call).proc p).esp = (k.proc p).esp := by
  have apart : ∀ q, (k.proc q).state = .unused → p ≠ q := fun q free here => used (here ▸ free)
  cases call with
  | fork cur stack copy =>
    simp only [ThreadTable.step, fork]
    rcases allocproc_cases k stack with full | ⟨q, free, _, result⟩ | ⟨q, free, _, result⟩
    · rw [full]
    · rw [result, set_other _ _ (apart q free)]
    · rw [result]
      cases copy <;> simp [apart q free, Kernel.kfree]
  | clone cur stack kstack =>
    simp only [ThreadTable.step, ThreadTable.clone]
    rcases allocproc_cases k kstack with full | ⟨q, free, _, result⟩ | ⟨q, free, _, result⟩
    · rw [full]
      split_ifs <;> rfl
    · rw [result]
      split_ifs <;> simp [apart q free]
    · rw [result]
      split_ifs <;> simp [apart q free]
  | exec cur build sz sp =>
    cases build with
    | failed scratch => simp [ThreadTable.step, exec]
    | built pgdir =>
      have apart : p ≠ cur := other
      simp [ThreadTable.step, exec, Kernel.freevm, apart]
  | exit cur => exact exit_esp k cur p
  | wait cur =>
    simp only [ThreadTable.step, deliver_proc, wait]
    split
    · rename_i q found
      rw [freeShared_eq]
      by_cases here : p = q
      · simp [here, Proc.cleared]
      · simp [here, Kernel.kfree]
    · rfl
    · exact sleep_esp k cur p
  | join cur =>
    simp only [ThreadTable.step, deliver_proc, join]
    split
    · rename_i q found
      by_cases here : p = q
      · simp [here, Proc.cleared]
      · simp [here, Kernel.kfree]
    · rfl
    · exact sleep_esp k cur p

end Kernel

structure Held (w : World) : Prop where
  fits : ∀ holder block, w.held holder = some block → block.toNat + 8196 ≤ 4294967296
  alive : ∀ holder block, w.held holder = some block → (w.pgdir holder.slot, block) ∈ w.live
  saved : ∀ holder block, w.held holder = some block →
    wordAt (w.mem (w.pgdir holder.slot)) ((stackOf block).toNat - 4) = block
  apart : ∀ holder other block block', holder ≠ other → w.held holder = some block →
    w.held other = some block' → w.pgdir holder.slot = w.pgdir other.slot → Apart block block'

structure Sound (w : World) : Prop where
  held : Held w
  family : Family w.kernel w.blocks
  ended : ∀ p block, w.blocks p = some block → (w.kernel.proc p).state = .zombie →
    OnStack block (w.kernel.proc p).esp.toNat
  awake : ∀ p, w.busy p ≠ none → InUse w.kernel p ∧ (w.kernel.proc p).state ≠ .zombie
  joined : ∀ p pid space block, w.busy p = some (.joined pid space block) →
    ∃ b, block = some b ∧ space = stackOf b
  once : w.live.Nodup
  count : ∀ place, w.frees.count place + w.live.count place = w.given.count place

section Steps
variable {w w' : World} {cur : Slot}

theorem Held.carry (held : Held w) (origin : Holder → Holder)
    (same : ∀ holder block, w'.held holder = some block →
      w.held (origin holder) = some block ∧ w'.pgdir holder.slot = w.pgdir (origin holder).slot)
    (distinct : ∀ holder other, w'.held holder ≠ none → w'.held other ≠ none → holder ≠ other →
      origin holder ≠ origin other) (live : ∀ holder block, w'.held holder = some block →
      (w'.pgdir holder.slot, block) ∈ w.live → (w'.pgdir holder.slot, block) ∈ w'.live)
    (saved : ∀ holder block, w'.held holder = some block →
      wordAt (w'.mem (w'.pgdir holder.slot)) ((stackOf block).toNat - 4) =
        wordAt (w.mem (w'.pgdir holder.slot)) ((stackOf block).toNat - 4)) : Held w' where
  fits holder block has := held.fits _ block (same holder block has).1
  alive holder block has := by
    apply live holder block has
    rw [(same holder block has).2]
    exact held.alive _ block (same holder block has).1
  saved holder block has := by
    rw [saved holder block has, (same holder block has).2]
    exact held.saved _ block (same holder block has).1
  apart holder other block block' differ has hasOther space := by
    obtain ⟨had, there⟩ := same holder block has
    obtain ⟨hadOther, thereOther⟩ := same other block' hasOther
    rw [there, thereOther] at space
    exact held.apart _ _ block block'
      (distinct holder other (by simp [has]) (by simp [hasOther]) differ) had hadOther space

def moved (taker source holder : Holder) : Holder := if holder = taker then source else holder

theorem moved_taker (taker source : Holder) : moved taker source taker = source := if_pos rfl

theorem moved_other {taker source holder : Holder} (other : holder ≠ taker) :
    moved taker source holder = holder := if_neg other

/-- Two blocks do not come from one holder, as `source` has none left. -/
theorem moved_distinct {taker source : Holder}
    (left : ∀ holder block, w'.held holder = some block → holder ≠ taker → holder ≠ source)
    (holder other : Holder) (held : w'.held holder ≠ none) (heldOther : w'.held other ≠ none)
    (differ : holder ≠ other) : moved taker source holder ≠ moved taker source other := by
  obtain ⟨b, held⟩ := Option.ne_none_iff_exists'.mp held
  obtain ⟨c, heldOther⟩ := Option.ne_none_iff_exists'.mp heldOther
  unfold moved
  split_ifs with here there there
  · exact absurd (here.trans there.symm) differ
  · exact (left other c heldOther there).symm
  · exact left holder b held here
  · exact differ

theorem Held.keep (held : Held w) (same : ∀ holder block, w'.held holder = some block →
      w.held holder = some block ∧ w'.pgdir holder.slot = w.pgdir holder.slot)
    (live : ∀ holder block, w'.held holder = some block →
      (w'.pgdir holder.slot, block) ∈ w.live → (w'.pgdir holder.slot, block) ∈ w'.live)
    (saved : ∀ holder block, w'.held holder = some block →
      wordAt (w'.mem (w'.pgdir holder.slot)) ((stackOf block).toNat - 4) =
        wordAt (w.mem (w'.pgdir holder.slot)) ((stackOf block).toNat - 4)) : Held w' :=
  held.carry id same (fun _ _ _ _ differ => differ) live saved

theorem Sound.holder_used (sound : Sound w) {holder : Holder} {block : UInt32}
    (has : w.held holder = some block) : InUse w.kernel holder.slot := by
  cases holder with
  | inl p =>
    by_contra unused
    have := sound.family.idle p unused
    rw [World.held, this] at has
    cases has
  | inr p =>
    refine (sound.awake p fun none => ?_).1
    rw [World.held, none] at has
    cases has

/-- A step that only touches the kernel, and there only processes that run. -/
theorem Sound.kernel {k : Kernel} (sound : Sound w) (keeps : Keeps w.kernel k)
    (esp : ∀ p, (w.kernel.proc p).state = .zombie → (k.proc p).esp = (w.kernel.proc p).esp) :
    Sound { w with kernel := k } where
  held := by
    refine sound.held.keep (fun holder block has => ⟨has, ?_⟩) (fun _ _ _ known => known)
      fun _ _ _ => rfl
    exact (keeps.alike _ (sound.holder_used has)).pgdir
  family := sound.family.keep keeps
  ended p block has zombie := by
    have used := sound.holder_used (show w.held (.inl p) = some block from has)
    have old := (keeps.alike p used).zombie.mp zombie
    rw [show ({ w with kernel := k } : World).kernel = k from rfl, esp p old]
    exact sound.ended p block has old
  awake p busy := by
    obtain ⟨used, lives⟩ := sound.awake p busy
    exact ⟨(keeps.used p).mpr used, fun zombie => lives ((keeps.alike p used).zombie.mp zombie)⟩
  joined := sound.joined
  once := sound.once
  count := sound.count

theorem Sound.trap (sound : Sound w) (runs : CanRun w cur) (esp : UInt32) :
    Sound (step w (.trap cur esp)) := by
  have alike : ∀ p, Alike (w.kernel.proc p)
      ((w.kernel.set cur { w.kernel.proc cur with esp }).proc p) := by
    intro p
    by_cases here : p = cur
    · subst here
      rw [set_self]
      exact ⟨rfl, rfl, rfl, rfl, Iff.rfl, Iff.rfl⟩
    · exact Alike.of_eq (set_other _ _ here)
  refine sound.kernel ⟨fun p => (alike p).inUse_iff, fun p _ => alike p, rfl,
    List.Subset.refl _⟩ fun p zombie => ?_
  have other : p ≠ cur := by
    rintro rfl
    rcases runs with runs | runs <;> simp [runs] at zombie
  rw [set_other _ _ other]

theorem Sound.grow (sound : Sound w) (sz : UInt32) : Sound (step w (.grow cur sz)) := by
  have alike : ∀ p, Alike (w.kernel.proc p) ((ProcessGrowth.setSizes w.kernel cur sz).proc p) := by
    intro p
    simp only [ProcessGrowth.setSizes]
    split
    · exact ⟨rfl, rfl, rfl, rfl, Iff.rfl, Iff.rfl⟩
    · exact Alike.refl _
  refine sound.kernel ⟨fun p => (alike p).inUse_iff, fun p _ => alike p, rfl,
    List.Subset.refl _⟩ fun p _ => ?_
  simp only [ProcessGrowth.setSizes]
  split <;> rfl

/-- Bytes of an address space change, but not the words of the blocks. -/
theorem Sound.setMem (sound : Sound w) (pgdir : Addr) (bytes : Bytes)
    (saved : ∀ holder block, w.held holder = some block → w.pgdir holder.slot = pgdir →
      wordAt bytes ((stackOf block).toNat - 4) =
        wordAt (w.mem pgdir) ((stackOf block).toNat - 4)) : Sound (w.setMem pgdir bytes) where
  held := by
    refine sound.held.keep (fun _ _ has => ⟨has, rfl⟩) (fun _ _ _ known => known)
      fun holder block has => ?_
    by_cases here : w.pgdir holder.slot = pgdir
    · subst here
      simp only [World.setMem, World.pgdir, update_self]
      exact saved holder block has rfl
    · show wordAt (update w.mem pgdir bytes (w.pgdir holder.slot)) _ =
        wordAt (w.mem (w.pgdir holder.slot)) _
      rw [update_of_ne here]
  family := sound.family
  ended := sound.ended
  awake := sound.awake
  joined := sound.joined
  once := sound.once
  count := sound.count

theorem wordAt_update {bytes : Bytes} {addr target : Nat} (byte : UInt8)
    (outside : addr < target ∨ target + 4 ≤ addr) :
    wordAt (update bytes addr byte) target = wordAt bytes target := by
  apply wordAt_congr
  intro index small
  rw [update_of_ne (by omega)]

theorem Sound.write (sound : Sound w) {addr : Nat} {byte : UInt8}
    (possible : Possible w (.write cur addr byte)) : Sound (step w (.write cur addr byte)) := by
  refine sound.setMem _ _ fun holder block has here => wordAt_update byte ?_
  have inside := stackOf_inside (sound.held.fits holder block has)
  by_contra word
  have page := (possible.2 holder block has here (by omega) (by omega)).2
  unfold OnStack at page
  omega

/-- A word that is put into a block is not the word of another. -/
theorem Apart.saved {b c : UInt32} (apart : Apart b c) (fits : c.toNat + 8196 ≤ 4294967296)
    (bytes : Bytes) {addr : Nat} (word : UInt32) (low : b.toNat ≤ addr)
    (high : addr + 4 ≤ b.toNat + 8196) :
    wordAt (putWord bytes addr word) ((stackOf c).toNat - 4) =
      wordAt bytes ((stackOf c).toNat - 4) := by
  have inside := stackOf_inside fits
  unfold Apart at apart
  exact wordAt_putWord_other (by omega)

theorem held_setBusy (holder : Holder) (busy : Option Busy) (other : holder ≠ .inr cur) :
    (w.setBusy cur busy).held holder = w.held holder := by
  cases holder with
  | inl p => rfl
  | inr p =>
    have apart : p ≠ cur := fun here => other (here ▸ rfl)
    simp only [World.held, World.setBusy, update_of_ne apart]

theorem setBusy_other {busy : Option Busy} {p : Slot} (other : p ≠ cur) :
    (w.setBusy cur busy).busy p = w.busy p := update_of_ne other ..

theorem setBusy_none {p : Slot} (busy : (w.setBusy cur none).busy p ≠ none) :
    p ≠ cur ∧ (w.setBusy cur none).busy p = w.busy p := by
  have other : p ≠ cur := by
    rintro rfl
    exact busy (update_self ..)
  exact ⟨other, setBusy_other other⟩

theorem CanRun.alive (runs : CanRun w cur) :
    InUse w.kernel cur ∧ (w.kernel.proc cur).state ≠ .zombie := by
  rcases runs with runs | runs <;> simp [InUse, runs]

/-- A process gets a block in which the word is already there. -/
theorem Sound.hold (sound : Sound w) (runs : CanRun w cur) {block : UInt32}
    (fits : block.toNat + 8196 ≤ 4294967296)
    (fresh : ∀ other, (w.pgdir cur, other) ∈ w.live → Apart block other)
    (saved : wordAt (w.mem (w.pgdir cur)) ((stackOf block).toNat - 4) = block) :
    Sound ((w.malloc (w.pgdir cur, block)).setBusy cur (some (.creating block))) := by
  -- a block is the new one, or somebody had it before
  have cases : ∀ holder b,
      ((w.malloc (w.pgdir cur, block)).setBusy cur (some (.creating block))).held holder = some b →
        holder = .inr cur ∧ b = block ∨ w.held holder = some b := by
    intro holder b has
    by_cases here : holder = .inr cur
    · subst here
      simp only [World.held, World.setBusy, update_self, Option.some.injEq] at has
      exact .inl ⟨rfl, has.symm⟩
    · rw [held_setBusy holder _ here] at has
      exact .inr has
  have distinct : (w.pgdir cur, block) ∉ w.live := by
    intro known
    have := fresh block known
    unfold Apart at this
    omega
  have newApart : ∀ holder b, w.held holder = some b → w.pgdir holder.slot = w.pgdir cur →
      Apart block b := fun holder b has space => fresh b (space ▸ sound.held.alive holder b has)
  refine {
    held := ⟨fun holder b has => ?_, fun holder b has => ?_, fun holder b has => ?_,
      fun holder other b c differ has hasOther space => ?_⟩
    family := sound.family, ended := sound.ended, awake := fun p busy => ?_
    joined := fun p pid space b busy => ?_
    once := List.nodup_cons.mpr ⟨distinct, sound.once⟩, count := fun place => ?_ }
  · rcases cases holder b has with ⟨rfl, rfl⟩ | old
    · exact fits
    · exact sound.held.fits holder b old
  · rcases cases holder b has with ⟨rfl, rfl⟩ | old
    · exact List.mem_cons_self
    · exact List.mem_cons_of_mem _ (sound.held.alive holder b old)
  · rcases cases holder b has with ⟨rfl, rfl⟩ | old
    · exact saved
    · exact sound.held.saved holder b old
  · rcases cases holder b has with ⟨rfl, rfl⟩ | old <;>
      rcases cases other c hasOther with ⟨rfl, rfl⟩ | oldOther
    · exact absurd rfl differ
    · exact newApart other c oldOther space.symm
    · exact (newApart holder b old space).symm
    · exact sound.held.apart holder other b c differ old oldOther space
  · by_cases here : p = cur
    · exact here ▸ runs.alive
    · rw [setBusy_other here] at busy
      exact sound.awake p busy
  · by_cases here : p = cur
    · subst here
      simp [World.setBusy] at busy
    · rw [setBusy_other here] at busy
      exact sound.joined p pid space b busy
  · have := sound.count place
    simp only [World.setBusy, World.malloc, List.count_append, List.count_cons, List.count_nil]
    omega

theorem Sound.createBlock (sound : Sound w) {block : UInt32}
    (possible : Possible w (.createBlock cur block)) : Sound (step w (.createBlock cur block)) := by
  obtain ⟨runs, idle, fresh⟩ := possible
  by_cases none : block = 0
  · rw [step, threadCreateBlock, if_pos none]
    exact sound
  obtain ⟨fits, apart⟩ := fresh none
  have inside := stackOf_inside fits
  have word : (stackOf block - 4).toNat = (stackOf block).toNat - 4 := stackOf_sub fits
  rw [step, threadCreateBlock, if_neg none, word]
  have written := sound.setMem (w.pgdir cur)
    (putWord (w.mem (w.pgdir cur)) ((stackOf block).toNat - 4) block) fun holder b has here =>
      (apart b (here ▸ sound.held.alive holder b has)).saved (sound.held.fits holder b has) _ _
        (by omega) (by omega)
  refine written.hold runs fits apart ?_
  show wordAt (update w.mem (w.pgdir cur)
    (putWord (w.mem (w.pgdir cur)) ((stackOf block).toNat - 4) block) (w.pgdir cur)) _ = block
  rw [update_self, wordAt_putWord_same]

theorem held_setBusy_none : (w.setBusy cur none).held (.inr cur) = none := by
  simp only [World.held, World.setBusy, update_self]

theorem Sound.release (sound : Sound w) {block : UInt32} (has : w.held (.inr cur) = some block) :
    Sound ((w.free (w.pgdir cur, block)).setBusy cur none) := by
  have known : (w.pgdir cur, block) ∈ w.live := sound.held.alive (.inr cur) block has
  have old : ∀ holder b, ((w.free (w.pgdir cur, block)).setBusy cur none).held holder = some b →
        holder ≠ .inr cur ∧ w.held holder = some b := by
    intro holder b held
    by_cases here : holder = .inr cur
    · rw [here, held_setBusy_none] at held
      cases held
    · rw [held_setBusy holder none here] at held
      exact ⟨here, held⟩
  refine {
    held := sound.held.keep (fun holder b held => ⟨(old holder b held).2, rfl⟩) ?_ fun _ _ _ => rfl
    family := sound.family, ended := sound.ended, awake := fun p busy => ?_
    joined := fun p pid space b busy => ?_
    once := sound.once.erase _, count := fun place => ?_ }
  · intro holder b held there
    obtain ⟨other, held⟩ := old holder b held
    refine (List.mem_erase_of_ne fun same => ?_).mpr there
    obtain ⟨space, equal⟩ := Prod.mk.inj same
    rw [equal] at held
    have := sound.held.apart holder (.inr cur) block block other held has space
    unfold Apart at this
    omega
  · rw [(setBusy_none busy).2] at busy
    exact sound.awake p busy
  · rw [(setBusy_none (by simp [busy])).2] at busy
    exact sound.joined p pid space b busy
  · have balance := sound.count place
    have some := List.count_pos_iff.mpr known
    simp only [World.setBusy, World.free, List.count_append, List.count_cons, List.count_nil,
      List.count_erase]
    by_cases same : (w.pgdir cur, block) = place
    · subst same
      simp only [beq_self_eq_true, if_true]
      omega
    · simp only [beq_iff_eq, same, if_false]
      omega

section
variable {k : Kernel} {bytes : Bytes} {f arg1 arg2 stack : UInt32} {kstack : Addr}

/-- How the call of `clone` ends: with nothing done, or with a thread. -/
theorem cloneCall_cases (used : InUse k cur) :
    (∃ k', cloneCall k bytes cur f arg1 arg2 stack kstack = (.fail, k', bytes) ∧ Keeps k k' ∧
        ∀ i, (k'.proc i).esp = (k.proc i).esp) ∨
      ∃ p, ¬ InUse k p ∧ (allocproc k kstack).1 = some p ∧
        cloneCall k bytes cur f arg1 arg2 stack kstack = (.value k.nextpid,
            { k with nextpid := k.nextpid + 1 }.set p (thread k cur p stack kstack),
            newStack bytes arg1 arg2 stack) := by
  have nothing : Keeps k k := ⟨fun _ => Iff.rfl, fun _ _ => Alike.refl _, rfl, List.Subset.refl _⟩
  unfold cloneCall CloneStacks.clone
  dsimp only
  split_ifs
  · by_cases refused : stack % 4096 ≠ 0 ∨ (k.proc cur).sz - stack < 4096
    · refine .inl ⟨k, ?_, nothing, fun _ => rfl⟩
      rw [ThreadTable.clone]
      rcases refused with unaligned | short
      · rw [if_pos unaligned]
      · rw [if_pos short, ite_self]
    rw [not_or] at refused
    rcases allocproc_cases k kstack with full | ⟨p, free, _, result⟩ | ⟨p, free, _, result⟩
    · rw [ThreadTable.clone, if_neg refused.1, if_neg refused.2, full]
      exact .inl ⟨k, rfl, nothing, fun _ => rfl⟩
    · rw [ThreadTable.clone, if_neg refused.1, if_neg refused.2, result]
      refine .inl ⟨_, rfl, keeps_of_spoiled free (by simp) (fun i other => ?_)
        ((Appends.counted k).set _ _), fun i => ?_⟩
      · exact Alike.of_eq (set_other _ _ other)
      · by_cases here : i = p
        · rw [here, set_self]
        · rw [set_other _ _ here]
    · rw [clone_taken used (not_not.mpr free) refused.1 refused.2 result, result]
      exact .inr ⟨p, not_not.mpr free, rfl, rfl⟩
  · exact .inl ⟨k, rfl, nothing, fun _ => rfl⟩

end

theorem setMem_self (pgdir : Addr) : w.setMem pgdir (w.mem pgdir) = w := by
  rw [World.setMem, update_eq_self]

/-- The words on the new stack are not those below the pages. -/
theorem Sound.newStack (sound : Sound w) {block : UInt32} (has : w.held (.inr cur) = some block)
    (arg1 arg2 : UInt32) :
    Sound (w.setMem (w.pgdir cur) (newStack (w.mem (w.pgdir cur)) arg1 arg2 (stackOf block))) := by
  have fits := sound.held.fits _ block has
  have inside := stackOf_inside fits
  rw [newStack_eq (by rw [stackOf_toNat fits]; omega)]
  refine sound.setMem _ _ fun holder b held here => ?_
  by_cases same : holder = .inr cur
  · subst same
    cases has.symm.trans held
    rw [wordAt_putWord_other (by omega), wordAt_putWord_other (by omega),
      wordAt_putWord_other (by omega)]
  · have fitsOther := sound.held.fits holder b held
    have apart := (sound.held.apart holder (.inr cur) b block same held has here).symm
    rw [apart.saved fitsOther _ _ (by omega) (by omega),
      apart.saved fitsOther _ _ (by omega) (by omega),
      apart.saved fitsOther _ _ (by omega) (by omega)]

/-- The block of a process on its way to `clone` becomes that of the thread. -/
theorem Sound.spawn (sound : Sound w) (runs : CanRun w cur) {block : UInt32} {p : Slot}
    {k : Kernel} (has : w.held (.inr cur) = some block) (free : ¬ InUse w.kernel p)
    (alive : (k.proc p).state = .runnable) (space : (k.proc p).pgdir = w.pgdir cur)
    (pid : (k.proc p).pid ≠ 0xffffffff) (parent : (k.proc p).parent = some cur)
    (others : ∀ i, i ≠ p → k.proc i = w.kernel.proc i) (initproc : k.initproc = w.kernel.initproc)
    (dirs : k.dirs = w.kernel.dirs) :
    Sound { w.setBusy cur none with
      kernel := k, blocks := update w.blocks p (some block) } := by
  have distinct : ∀ i, InUse w.kernel i → i ≠ p := fun i used here => free (here ▸ used)
  let w' : World := { w.setBusy cur none with
    kernel := k, blocks := update w.blocks p (some block) }
  have kept : ∀ holder b, w'.held holder = some b → holder ≠ .inl p →
      holder ≠ .inr cur ∧ w.held holder = some b := by
    intro holder b held old
    cases holder with
    | inl q =>
      have other : q ≠ p := fun here => old (here ▸ rfl)
      simp only [w', World.held, update_of_ne other] at held
      exact ⟨Sum.inl_ne_inr, held⟩
    | inr q =>
      by_cases here : q = cur
      · subst here
        simp [w', World.held, World.setBusy] at held
      · simp only [w', World.held, World.setBusy, update_of_ne here] at held
        exact ⟨fun same => here (Sum.inr.inj same), held⟩
  refine {
    -- the new thread has the block of the caller, everybody else their own
    held := sound.held.carry (moved (.inl p) (.inr cur)) (fun holder b held => ?_)
      (moved_distinct fun holder b held old => (kept holder b held old).1)
      (fun _ _ _ known => known) fun _ _ _ => rfl
    family := ?_, ended := fun q b held zombie => ?_, awake := fun q busy => ?_
    joined := fun q pid space b busy => ?_, once := sound.once, count := sound.count }
  · by_cases here : holder = .inl p
    · subst here
      simp only [World.held, update_self, Option.some.injEq] at held
      rw [moved_taker]
      exact ⟨held ▸ has, space⟩
    · obtain ⟨_, old⟩ := kept holder b held here
      rw [moved_other here]
      refine ⟨old, ?_⟩
      have other := distinct _ (sound.holder_used old)
      show (k.proc holder.slot).pgdir = (w.kernel.proc holder.slot).pgdir
      rw [others _ other]
  · refine sound.family.created free alive pid parent runs.alive
      (fun i other => Alike.of_eq (others i other)) initproc ?_ ?_ fun none => by cases none
    · rw [dirs]
      exact List.Subset.refl _
    · rw [space, dirs]
      exact sound.family.handed cur runs.alive.1
  · by_cases here : q = p
    · subst here
      simp [alive] at zombie
    · simp only [update_of_ne here] at held
      simp only [others q here] at zombie ⊢
      exact sound.ended q b held zombie
  · have old := sound.awake q ((setBusy_none busy).2 ▸ busy)
    simp only [InUse, others q (distinct q old.1)]
    exact old
  · change (w.setBusy cur none).busy q = some (.joined pid space b) at busy
    rw [(setBusy_none (by simp [busy])).2] at busy
    exact sound.joined q pid space b busy

theorem Sound.createClone (sound : Sound w) {f arg1 arg2 : UInt32} {kstack : Addr}
    (possible : Possible w (.createClone cur f arg1 arg2 kstack)) :
    Sound (step w (.createClone cur f arg1 arg2 kstack)) := by
  obtain ⟨runs, left⟩ := possible
  have pid := pid_left left (by simp [Call.kallocs])
  rw [step, threadCreateClone]
  split
  · rename_i block busy
    have has : w.held (.inr cur) = some block := by simp only [World.held, busy]
    rcases @cloneCall_cases cur w.kernel (w.mem (w.pgdir cur)) f arg1 arg2 (stackOf block) kstack
      runs.alive.1 with ⟨k', result, keeps, esp⟩ | ⟨p, free, slot, result⟩
    · rw [result]
      dsimp only
      have unchanged : ({ w with kernel := k' } : World).setMem (w.pgdir cur)
          (w.mem (w.pgdir cur)) = { w with kernel := k' } :=
        @setMem_self { w with kernel := k' } (w.pgdir cur)
      rw [unchanged]
      have space : ({ w with kernel := k' } : World).pgdir cur = w.pgdir cur :=
        (keeps.alike cur runs.alive.1).pgdir
      have kept := (sound.kernel keeps fun i _ => esp i).release has
      rwa [space] at kept
    · rw [result, slot]
      dsimp only
      rw [if_neg pid]
      have written := sound.newStack has arg1 arg2
      have child := set_self { w.kernel with nextpid := w.kernel.nextpid + 1 } p
        (thread w.kernel cur p (stackOf block) kstack)
      exact @Sound.spawn _ cur written runs block p
        ({ w.kernel with nextpid := w.kernel.nextpid + 1 }.set p
          (thread w.kernel cur p (stackOf block) kstack))
        has free (by rw [child]; rfl) (by rw [child]; rfl) (by rw [child]; exact pid)
        (by rw [child]; rfl) (fun i other => set_other _ _ other) rfl rfl
  · exact sound

theorem forget_some {call : Call} {p : Slot} {block : UInt32}
    (has : forget w.kernel call w.blocks p = some block) :
    w.blocks p = some block ∧ leaver w.kernel call ≠ some p := by
  cases left : leaver w.kernel call with
  | none =>
    simp only [forget, left] at has
    exact ⟨has, Option.some_ne_none p |>.symm⟩
  | some q =>
    simp only [forget, left] at has
    by_cases here : p = q
    · rw [here, update_self] at has
      cases has
    · rw [update_of_ne here] at has
      exact ⟨has, fun same => here (Option.some.inj same).symm⟩

/-- Who leaves an address space has exited, or called `exec`. -/
theorem leaver_cases {k : Kernel} {call : Call} {p : Slot} (left : leaver k call = some p) :
    (k.proc p).state = .zombie ∨ p = call.cur ∧ call.dirs ≠ [] := by
  have ended : ∀ {cur : Slot} {child : Slot → Bool},
      scan k cur child = .child p → (k.proc p).state = .zombie :=
    fun found => (scan_child found).2
  cases call with
  | fork | clone | exit => cases left
  | exec cur build sz sp =>
    cases build with
    | failed scratch => cases left
    | built pgdir =>
      cases left
      exact .inr ⟨rfl, by simp [Call.dirs, Build.dirs]⟩
  | wait cur | join cur =>
    simp only [leaver, collected] at left
    split at left
    · cases left
      exact .inl (ended ‹_›)
    · cases left

/-- The world after a call of the kernel, up to the processes that are busy. -/
theorem Sound.called {call : Call} (sound : Sound w) (canCall : CanCall w.kernel call)
    (fresh : FreshDir w.kernel call) (left : PidLeft w.kernel call)
    (cloneless : ∀ cur stack kstack, call ≠ .clone cur stack kstack)
    (exits : ∀ block, call = .exit call.cur → w.blocks call.cur = some block →
      OnStack block (w.kernel.proc call.cur).esp.toNat)
    (kernel : w'.kernel = ThreadTable.step w.kernel call)
    (blocks : w'.blocks = forget w.kernel call w.blocks)
    (mem : ∀ pgdir ∈ w.kernel.dirs, w'.mem pgdir = w.mem pgdir)
    (books : w'.live = w.live ∧ w'.frees = w.frees ∧ w'.given = w.given) (origin : Holder → Holder)
    (same : ∀ holder block, w'.held holder = some block → w.held (origin holder) = some block ∧
      w'.pgdir holder.slot = w.pgdir (origin holder).slot)
    (distinct : ∀ holder other, w'.held holder ≠ none → w'.held other ≠ none → holder ≠ other →
      origin holder ≠ origin other)
    (awake : ∀ p, w'.busy p ≠ none → InUse w.kernel p ∧ (w.kernel.proc p).state ≠ .zombie ∧
      leaver w.kernel call ≠ some p ∧ call ≠ .exit p)
    (joined : ∀ p pid space block, w'.busy p = some (.joined pid space block) →
      ∃ b, block = some b ∧ space = stackOf b) : Sound w' where
  held := by
    refine sound.held.carry origin same distinct (fun _ _ _ known => books.1 ▸ known)
      fun holder block has => ?_
    obtain ⟨had, there⟩ := same holder block has
    rw [mem _ (there ▸ sound.family.handed _ (sound.holder_used had))]
  family := by
    rw [kernel, blocks]
    exact sound.family.step canCall fresh left cloneless
  ended p block has zombie := by
    rw [blocks] at has
    obtain ⟨had, stays⟩ := forget_some has
    have used : InUse w.kernel p := sound.holder_used (show w.held (.inl p) = some block from had)
    rw [kernel] at zombie ⊢
    rcases (step_stays canCall used stays).2.2 zombie with old | exit
    · have other : p ≠ call.cur := by
        rintro rfl
        exact (canCall_alive canCall).2 old
      rw [step_esp used other]
      exact sound.ended p block had old
    · subst exit
      rw [show (ThreadTable.step w.kernel (.exit p)) = exit w.kernel p from rfl, exit_esp]
      exact exits block rfl had
  awake p busy := by
    obtain ⟨used, lives, stays, exitless⟩ := awake p busy
    obtain ⟨uses, _, zombie⟩ := step_stays canCall used stays
    rw [kernel]
    exact ⟨uses, fun ended => (zombie ended).elim lives exitless⟩
  joined := joined
  once := books.1 ▸ sound.once
  count place := by
    rw [books.1, books.2.1, books.2.2]
    exact sound.count place

/-- A busy process does not leave its address space, unless it calls `exec`. -/
theorem Sound.busy_stays {call : Call} (sound : Sound w) {p : Slot} (busy : w.busy p ≠ none)
    (other : p = call.cur → call.dirs = []) : leaver w.kernel call ≠ some p := by
  intro left
  rcases leaver_cases left with zombie | ⟨here, dirs⟩
  · exact (sound.awake p busy).2 zombie
  · exact dirs (other here)

theorem Sound.quiet {call : Call} {mem : Addr → Bytes} (sound : Sound w)
    (canCall : CanCall w.kernel call) (fresh : FreshDir w.kernel call)
    (left : PidLeft w.kernel call) (cloneless : ∀ cur stack kstack, call ≠ .clone cur stack kstack)
    (exitless : ∀ cur, call ≠ .exit cur) (idle : w.busy call.cur = none)
    (same : ∀ pgdir ∈ w.kernel.dirs, mem pgdir = w.mem pgdir) :
    Sound { w.call call with mem := mem } := by
  have stays : ∀ p, w.busy p ≠ none → leaver w.kernel call ≠ some p := fun p busy =>
    sound.busy_stays busy fun here => absurd (here ▸ idle) busy
  refine sound.called canCall fresh left cloneless
    (fun _ exit => absurd exit (exitless call.cur)) rfl rfl same
    ⟨rfl, rfl, rfl⟩ id (fun holder block has => ?_) (fun _ _ _ _ differ => differ)
    (fun p busy => ?_) sound.joined
  · cases holder with
    | inl p =>
      obtain ⟨had, stays⟩ := forget_some has
      exact ⟨had, (step_stays canCall
        (sound.holder_used (show w.held (.inl p) = some block from had)) stays).2.1⟩
    | inr p =>
      have busy : w.busy p ≠ none := by
        intro none
        simp [World.held, World.call, none] at has
      exact ⟨has, (step_stays canCall (sound.awake p busy).1 (stays p busy)).2.1⟩
  · obtain ⟨used, lives⟩ := sound.awake p busy
    exact ⟨used, lives, stays p busy, exitless p⟩

theorem Sound.call {call : Call} {image : Bytes} (sound : Sound w)
    (possible : Possible w (.call call image)) : Sound (step w (.call call image)) := by
  obtain ⟨canCall, fresh, left, idle, cloneless, plain⟩ := possible
  refine sound.quiet canCall fresh left cloneless (fun cur => (plain cur).2) idle
    fun pgdir known => ?_
  exact if_neg fun new => (fresh pgdir new).2 known

theorem Sound.exit (sound : Sound w) (possible : Possible w (.exit cur)) :
    Sound (step w (.exit cur)) := by
  obtain ⟨canCall, onStack⟩ := possible
  have nobody : leaver w.kernel (.exit cur) = none := rfl
  have old : ∀ p, (step w (.exit cur)).busy p ≠ none →
      p ≠ cur ∧ (step w (.exit cur)).busy p = w.busy p := fun p => setBusy_none
  refine @Sound.called w (step w (.exit cur)) (.exit cur) sound canCall (fun _ none => by cases none)
    (fun asks => absurd rfl asks) (fun _ _ _ same => by cases same) (fun block _ => onStack block)
    rfl rfl (fun _ _ => rfl) ⟨rfl, rfl, rfl⟩ id (fun holder block has => ?_)
    (fun _ _ _ _ differ => differ) (fun p some => ?_) fun p pid space block joins => ?_
  · have had : w.held holder = some block := by
      by_cases here : holder = .inr cur
      · rw [here, step, held_setBusy_none] at has
        cases has
      · rw [step, held_setBusy holder none here] at has
        exact has
    exact ⟨had, (step_stays canCall (sound.holder_used had) (by rw [nobody]; simp)).2.1⟩
  · obtain ⟨other, same⟩ := old p some
    obtain ⟨used, lives⟩ := sound.awake p (same ▸ some)
    exact ⟨used, lives, by rw [nobody]; simp, fun same => other (by cases same; rfl)⟩
  · rw [(old p (by simp [joins])).2] at joins
    exact sound.joined p pid space block joins

/-- What `join` finds is a thread with a block, which it exited on. -/
theorem Sound.joins {p : Slot} (sound : Sound w) (found : collected w.kernel (.join cur) = some p) :
    ∃ block, w.blocks p = some block ∧ w.pgdir p = w.pgdir cur ∧
      (w.kernel.proc p).pid ≠ 0xffffffff ∧ (w.kernel.proc p).state = .zombie ∧
      join w.kernel cur = (.value (w.kernel.proc p).pid, some (stackOf block),
        (w.kernel.kfree (w.kernel.proc p).kstack).set p (w.kernel.proc p).cleared) := by
  simp only [collected] at found
  split at found
  · rename_i q hit
    cases found
    obtain ⟨joins, zombie⟩ := scan_child hit
    have joins : JoinsWith w.kernel cur p := by simpa using joins
    have used : InUse w.kernel p := by simp [InUse, zombie]
    cases block : w.blocks p with
    | none => exact absurd joins.2.symm (sound.family.outside p cur used block joins.1)
    | some b =>
      refine ⟨b, rfl, joins.2, sound.family.pids p used, zombie, ?_⟩
      have fits := sound.held.fits (.inl p) b block
      simp only [join, hit, pgrounddown_onStack fits (sound.ended p b block zombie)]
  · cases found

theorem join_none {k : Kernel} (nobody : collected k (.join cur) = none) :
    (join k cur).2.1 = none := by
  simp only [collected] at nobody
  split at nobody
  · cases nobody
  · unfold join
    split
    · simp_all
    · rfl
    · rfl

theorem threadJoinCall_found {p : Slot} {block : UInt32} (sound : Sound w)
    (found : collected w.kernel (.join cur) = some p) (has : w.blocks p = some block) :
    threadJoinCall w cur = (w.call (.join cur)).setBusy cur
      (some (.joined (w.kernel.proc p).pid (stackOf block) (some block))) := by
  obtain ⟨b, had, _, pid, _, result⟩ := sound.joins found
  cases has.symm.trans had
  rw [threadJoinCall, result]
  simp only [if_neg pid, found, Option.bind_some, has]

theorem threadJoinCall_none (nobody : collected w.kernel (.join cur) = none) :
    threadJoinCall w cur = w.call (.join cur) := by
  have nothing := join_none nobody
  unfold threadJoinCall
  generalize join w.kernel cur = result at nothing
  obtain ⟨ret, space, k⟩ := result
  cases nothing
  cases ret <;> rfl

theorem Sound.joinCall (sound : Sound w) (possible : Possible w (.joinCall cur)) :
    Sound (step w (.joinCall cur)) := by
  obtain ⟨runs, idle⟩ := possible
  have canCall : CanCall w.kernel (.join cur) := ⟨runs, fun same => by cases same⟩
  have fresh : FreshDir w.kernel (.join cur) := fun _ none => by cases none
  have left : PidLeft w.kernel (.join cur) := fun asks => absurd rfl asks
  have cloneless : ∀ caller stack kstack, Call.join cur ≠ .clone caller stack kstack :=
    fun _ _ _ same => by cases same
  have exitless : ∀ caller, Call.join cur ≠ .exit caller := fun _ same => by cases same
  rw [step]
  cases found : collected w.kernel (.join cur) with
  | none =>
    rw [threadJoinCall_none found]
    exact sound.quiet canCall fresh left cloneless exitless idle fun _ _ => rfl
  | some p =>
    obtain ⟨block, has, space, pid, zombie, _⟩ := sound.joins found
    have leaves : leaver w.kernel (.join cur) = some p := found
    have caller : cur ≠ p := by
      rintro rfl
      exact runs.alive.2 zombie
    rw [threadJoinCall_found sound found has]
    have kept : ∀ holder b, ((w.call (.join cur)).setBusy cur
        (some (.joined (w.kernel.proc p).pid (stackOf block) (some block)))).held holder = some b →
        holder ≠ .inr cur → holder ≠ .inl p ∧ w.held holder = some b ∧
          leaver w.kernel (.join cur) ≠ some holder.slot := by
      intro holder b held other
      rw [held_setBusy holder _ other] at held
      cases holder with
      | inl q =>
        obtain ⟨had, stays⟩ := forget_some held
        exact ⟨fun same => stays (by rw [leaves, Sum.inl.inj same]), had, stays⟩
      | inr q =>
        have busy : w.busy q ≠ none := by
          intro none
          simp [World.held, World.call, none] at held
        exact ⟨Sum.inr_ne_inl, held, sound.busy_stays busy fun _ => rfl⟩
    -- the caller has the block of the thread now, everybody else their own
    refine @Sound.called w _ (.join cur) sound canCall fresh left cloneless
      (fun _ exit => absurd exit (exitless cur)) rfl rfl (fun _ _ => rfl) ⟨rfl, rfl, rfl⟩
      (moved (.inr cur) (.inl p)) (fun holder b held => ?_)
      (moved_distinct fun holder b held other => (kept holder b held other).1)
      (fun q busy => ?_) fun q qid page b busy => ?_
    · by_cases here : holder = .inr cur
      · subst here
        simp only [World.held, World.setBusy, update_self] at held
        rw [moved_taker]
        refine ⟨held ▸ has, ?_⟩
        rw [show w.pgdir (Holder.slot (.inl p)) = w.pgdir cur from space]
        exact (step_stays canCall runs.alive.1 (by rw [leaves]; simpa using caller.symm)).2.1
      · obtain ⟨_, had, stays⟩ := kept holder b held here
        rw [moved_other here]
        exact ⟨had, (step_stays canCall (sound.holder_used had) stays).2.1⟩
    · by_cases here : q = cur
      · subst here
        exact ⟨runs.alive.1, runs.alive.2, by rw [leaves]; simpa using caller.symm, exitless q⟩
      · rw [setBusy_other here] at busy
        obtain ⟨used, lives⟩ := sound.awake q busy
        exact ⟨used, lives, sound.busy_stays busy fun _ => rfl, exitless q⟩
    · by_cases here : q = cur
      · subst here
        simp only [World.setBusy, update_self, Option.some.injEq, Busy.joined.injEq] at busy
        exact ⟨block, busy.2.2.symm, busy.2.1.symm⟩
      · rw [setBusy_other here] at busy
        exact sound.joined q qid page b busy

/-- The word below the page is the block that the thread was given. -/
theorem threadJoinFree_eq (sound : Sound w) {pid space : UInt32} {block : Option UInt32}
    (busy : w.busy cur = some (.joined pid space block)) :
    ∃ b, block = some b ∧ w.held (.inr cur) = some b ∧
      threadJoinFree w cur = (w.free (w.pgdir cur, b)).setBusy cur none := by
  obtain ⟨b, rfl, rfl⟩ := sound.joined cur pid space block busy
  have has : w.held (.inr cur) = some b := by simp only [World.held, busy]
  have word : wordAt (w.mem (w.pgdir cur)) ((stackOf b).toNat - 4) = b :=
    sound.held.saved (.inr cur) b has
  refine ⟨b, rfl, has, ?_⟩
  simp only [threadJoinFree, busy, stackOf_sub (sound.held.fits _ b has), word]

theorem Sound.joinFree (sound : Sound w) : Sound (step w (.joinFree cur)) := by
  rw [step]
  cases busy : w.busy cur with
  | none =>
    rw [threadJoinFree, busy]
    exact sound
  | some state =>
    cases state with
    | creating block =>
      rw [threadJoinFree, busy]
      exact sound
    | joined pid space block =>
      obtain ⟨b, _, has, result⟩ := threadJoinFree_eq sound busy
      rw [result]
      exact sound.release has

theorem Sound.start (pgdir kstack : Addr) (mem : Addr → Bytes) :
    Sound (start pgdir kstack mem) where
  held := by
    have nobody : ∀ holder block,
        (ThreadStacks.start pgdir kstack mem).held holder ≠ some block := by
      intro holder block has
      cases holder <;> cases has
    exact ⟨fun holder block has => absurd has (nobody holder block),
      fun holder block has => absurd has (nobody holder block),
      fun holder block has => absurd has (nobody holder block),
      fun holder _ block _ _ has => absurd has (nobody holder block)⟩
  family := boot_family pgdir kstack
  ended p block has := by cases has
  awake p busy := absurd rfl busy
  joined p pid space block busy := by cases busy
  once := List.nodup_nil
  count place := rfl

theorem Sound.step {event : Event} (sound : Sound w) (possible : Possible w event) :
    Sound (step w event) := by
  cases event with
  | trap cur esp => exact sound.trap possible esp
  | grow cur sz => exact sound.grow sz
  | write cur addr byte => exact sound.write possible
  | createBlock cur block => exact sound.createBlock possible
  | createClone cur f arg1 arg2 kstack => exact sound.createClone possible
  | joinCall cur => exact sound.joinCall possible
  | joinFree cur => exact sound.joinFree
  | call call image => exact sound.call possible
  | exit cur => exact sound.exit possible

theorem createClone_right {f arg1 arg2 : UInt32} {kstack : Addr}
    (possible : Possible w (.createClone cur f arg1 arg2 kstack)) :
    Right w (.createClone cur f arg1 arg2 kstack) := by
  intro block busy
  obtain ⟨runs, left⟩ := possible
  have pid := pid_left left (by simp [Call.kallocs])
  simp only [step, threadCreateClone, busy]
  rcases @cloneCall_cases cur w.kernel (w.mem (w.pgdir cur)) f arg1 arg2 (stackOf block) kstack
    runs.alive.1 with ⟨k', result, keeps, _⟩ | ⟨p, free, slot, result⟩
  · rw [result]
    exact .inr ⟨keeps.used, rfl⟩
  · rw [result, slot]
    dsimp only
    rw [if_neg pid]
    refine .inl ⟨p, free, ?_, update_self .., rfl⟩
    simp [InUse, World.setBusy, World.setMem, thread]

theorem Sound.right {event : Event} (sound : Sound w) (possible : Possible w event) :
    Right w event := by
  cases event with
  | trap | grow | write | call | exit => rfl
  | createBlock cur block =>
    by_cases none : block = 0
    · simp only [Right, ThreadStacks.step, threadCreateBlock, if_pos none]
      exact ⟨trivial, fun some => absurd none some⟩
    · simp only [Right, ThreadStacks.step, threadCreateBlock, if_neg none]
      exact ⟨rfl, fun _ => ⟨update_self .., stackOf_inside (possible.2.2 none).1⟩⟩
  | createClone cur f arg1 arg2 kstack => exact createClone_right possible
  | joinCall cur =>
    simp only [Right, ThreadStacks.step]
    cases found : collected w.kernel (.join cur) with
    | none =>
      rw [threadJoinCall_none found]
      exact ⟨rfl, fun _ some => by cases some⟩
    | some p =>
      obtain ⟨block, has, _⟩ := sound.joins found
      rw [threadJoinCall_found sound found has]
      refine ⟨rfl, fun q same => ?_⟩
      cases same
      exact ⟨block, stackOf block, has, update_self ..⟩
  | joinFree cur =>
    intro pid space block busy
    obtain ⟨b, rfl, has, result⟩ := threadJoinFree_eq sound busy
    refine ⟨b, rfl, sound.held.alive (.inr cur) b has, ?_, ?_⟩
    · rw [ThreadStacks.step, result]
      rfl
    · rw [ThreadStacks.step, result]
      exact sound.once.not_mem_erase

end Steps

/-- In every run the word and the stack page of a thread are inside its block,
`thread_join` frees the block of the thread whose pid it returns, a failed `clone`
frees its block at once, and a place is freed as often as it was given, except
for what is still live. -/
theorem joined_threads_free_their_blocks (pgdir kstack : Addr) (mem : Addr → Bytes)
    {events : List Event} (all : Allowed step Possible (start pgdir kstack mem) events) :
    (∀ event, Possible (run step (start pgdir kstack mem) events) event →
        Right (run step (start pgdir kstack mem) events) event) ∧
      ∀ place, (run step (start pgdir kstack mem) events).frees.count place +
        (run step (start pgdir kstack mem) events).live.count place =
          (run step (start pgdir kstack mem) events).given.count place := by
  have sound : Sound (run step (start pgdir kstack mem) events) :=
    invariant Sound (Sound.start pgdir kstack mem) (fun _ _ sound => sound.step) all
  exact ⟨fun event => sound.right, sound.count⟩

def twoThreads : List Event :=
  [.grow 0 65536, .createBlock 0 8192, .createClone 0 0 0 0 5, .createBlock 0 20480,
    .createClone 0 0 0 0 6, .trap 2 28000, .exit 2, .joinCall 0, .joinFree 0, .trap 1 16000, .exit 1,
    .joinCall 0]

theorem twoThreads_allowed : Allowed step Possible (start 4 1 fun _ _ => 0) twoThreads := by
  refine ⟨?_, ?_, ?_, ?_, ?_, ?_, ?_, ?_, ?_, ?_, ?_, ?_, trivial⟩
  · exact .inl rfl
  · refine ⟨.inl rfl, rfl, fun _ => ⟨by decide, fun other known => ?_⟩⟩
    cases known
  · exact ⟨.inl rfl, fun _ => by decide⟩
  · refine ⟨.inl rfl, rfl, fun _ => ⟨by decide, fun other known => ?_⟩⟩
    have live : (run step (start 4 1 fun _ _ => 0) (twoThreads.take 3)).live = [(4, 8192)] := rfl
    have only : (4, other) ∈ [((4 : Addr), (8192 : UInt32))] := live ▸ known
    cases List.mem_singleton.mp only
    exact .inr (by decide)
  · exact ⟨.inl rfl, fun _ => by decide⟩
  · exact .inl rfl
  · refine ⟨by decide, fun block has => ?_⟩
    have known : (run step (start 4 1 fun _ _ => 0) (twoThreads.take 6)).blocks 2 = some 20480 := rfl
    cases known.symm.trans has
    exact (by decide : 24576 ≤ 28000 ∧ 28000 < 24576 + 4096)
  · exact ⟨.inl rfl, rfl⟩
  · exact .inl rfl
  · exact .inl rfl
  · refine ⟨by decide, fun block has => ?_⟩
    have known : (run step (start 4 1 fun _ _ => 0) (twoThreads.take 10)).blocks 1 = some 8192 := rfl
    cases known.symm.trans has
    exact (by decide : 12288 ≤ 16000 ∧ 16000 < 12288 + 4096)
  · exact ⟨.inl rfl, rfl⟩

/-- The thread created last is joined first; each join frees its own block. -/
theorem later_thread_is_joined_first :
    (run step (start 4 1 fun _ _ => 0) (twoThreads.take 8)).busy 0 =
        some (.joined 3 24576 (some 20480)) ∧
      (run step (start 4 1 fun _ _ => 0) twoThreads).busy 0 =
        some (.joined 2 12288 (some 8192)) ∧
      (step (run step (start 4 1 fun _ _ => 0) twoThreads) (.joinFree 0)).frees =
        [(4, 20480), (4, 8192)] := by
  have right := (joined_threads_free_their_blocks 4 1 _ twoThreads_allowed).1 (.joinFree 0) (.inl rfl)
  have busy : (run step (start 4 1 fun _ _ => 0) twoThreads).busy 0 =
      some (.joined 2 12288 (some 8192)) := by rfl
  obtain ⟨b, same, _, frees, _⟩ := right 2 12288 (some 8192) busy
  cases same
  exact ⟨rfl, busy, frees⟩

end OsProjects.ThreadStacks
