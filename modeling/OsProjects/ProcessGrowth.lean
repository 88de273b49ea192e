import OsProjects.PageTables
import OsProjects.ByteStore

/-!
`growproc` of `xv6-thread.patch`: the memory of the caller grows or shrinks, and
every slot with its page directory gets the new size. Zero is both a size and the
failure of `allocuvm` and `deallocuvm`, and the patched function returns 0 in the
end, whatever came before.
-/

namespace OsProjects.ProcessGrowth

open ByteStore ThreadTable PageTables Function

def setSizes (k : Kernel) (cur : Slot) (sz : UInt32) : Kernel :=
  { k with
    proc := fun p =>
      if (k.proc p).pgdir = (k.proc cur).pgdir then { k.proc p with sz } else k.proc p }

/-- The new size and what became of the address space; `none` is the panic of
`mappages`. -/
def resize (kalloc : Kalloc) (vm : Vm) (sz n : UInt32) : Option (UInt32 × Vm) :=
  if 0 < signed n then allocuvm kalloc vm sz (sz + n)
  else if signed n < 0 then some (deallocuvm vm sz (sz + n))
  else some (sz, vm)

/-- With the page directories of all processes. `switchuvm` only loads registers
and is left out. -/
def growproc (kalloc : Kalloc) (k : Kernel) (spaces : Addr → PageDir) (cur : Slot) (n : UInt32) :
    Option (Ret × Kernel × (Addr → PageDir)) :=
  let curproc := k.proc cur
  (resize kalloc ⟨spaces curproc.pgdir, 0, []⟩ curproc.sz n).map fun (sz, vm) =>
    let failed := n ≠ 0 ∧ sz = 0
    (.value 0, if failed then k else setSizes k cur sz,
      update spaces curproc.pgdir vm.dir)

def Maps (dir : PageDir) (bytes : Int) : Prop :=
  0 ≤ bytes ∧ ∀ n : Nat, dir.page n ≠ none ↔ 4096 * (n : Int) < bytes

structure InStep (k : Kernel) (spaces : Addr → PageDir) (cur : Slot) (n : Int)
    (ret : Ret) (new : Kernel) (mapped : Addr → PageDir) : Prop where
  reported : ret = .value 0 ↔ Maps (mapped (k.proc cur).pgdir) ((k.proc cur).sz.toNat + n)
  shared : ret = .value 0 → ∀ p, (k.proc p).pgdir = (k.proc cur).pgdir →
    ((new.proc p).sz.toNat : Int) = (k.proc cur).sz.toNat + n
  others : ret = .value 0 → ∀ p, (k.proc p).pgdir ≠ (k.proc cur).pgdir →
    (new.proc p).sz = (k.proc p).sz
  refused : ret ≠ .value 0 → ret = .fail ∧ (∀ p, (new.proc p).sz = (k.proc p).sz) ∧
    ∀ page : Nat, 4096 * page < (k.proc cur).sz.toNat →
      (mapped (k.proc cur).pgdir).page page = (spaces (k.proc cur).pgdir).page page

/-- Nothing is asked for, or `kalloc` has all the pages and the new size is one
of a process, or something is left of the memory. -/
def Met (kalloc : Kalloc) (dir : PageDir) (sz : UInt32) (n : Int) : Prop :=
  n = 0 ∨
    (0 < n ∧ sz.toNat + n < 2147483648 ∧
      Granted kalloc ⟨dir, 0, []⟩ ((sz.toNat + 4095) / 4096) (sz.toNat + n).toNat) ∨
    (n < 0 ∧ 0 < sz.toNat + n)

section
variable {kalloc : Kalloc} {k : Kernel} {spaces : Addr → PageDir} {cur : Slot} {n : UInt32}

theorem signed_eq_zero_iff : signed n = 0 ↔ n = 0 := by
  rw [← UInt32.toNat_inj, signed, UInt32.toNat_zero]
  have := n.toNat_lt
  split <;> omega

theorem signed_lt (n : UInt32) : signed n < 2147483648 := by
  have := n.toNat_lt
  unfold signed
  split <;> omega

/-- The sum of a size and `n` has not wrapped if it is one of a process. -/
theorem toNat_add_signed {sz : UInt32} (low : 0 ≤ sz.toNat + signed n)
    (high : sz.toNat + signed n < 4294967296) : ((sz + n).toNat : Int) = sz.toNat + signed n := by
  rw [UInt32.toNat_add]
  have := n.toNat_lt
  unfold signed at low high ⊢
  split at low <;> simp_all <;> omega

theorem maps_added {old new : PageDir} {sz newsz : Nat} (maps : Maps old sz) (order : sz ≤ newsz)
    (added : Added ((sz + 4095) / 4096) newsz old new) : Maps new newsz := by
  refine ⟨by omega, fun page => ?_⟩
  by_cases inside : (sz + 4095) / 4096 ≤ page ∧ 4096 * page < newsz
  · exact iff_of_true (added.present page inside.1 inside.2) (by omega)
  · rw [added.others page inside, maps.2 page]
    omega

theorem maps_cleared {old new : PageDir} {sz newsz : Nat} (maps : Maps old sz) (order : newsz ≤ sz)
    (cleared : Cleared ((newsz + 4095) / 4096) sz old new) : Maps new newsz := by
  refine ⟨by omega, fun page => ?_⟩
  rw [cleared page]
  split
  · exact iff_of_false (by simp) (by omega)
  · rw [maps.2 page]
    omega

/-- How a growth ends: the size that was asked for with its pages, or 0. -/
theorem allocuvm_outcome {vm : Vm} {sz newsz : UInt32} (below : sz < kernbase)
    (order : sz ≤ newsz) (maps : Maps vm.dir sz.toNat) :
    ∃ ret vm1, allocuvm kalloc vm sz newsz = some (ret, vm1) ∧
      ((newsz.toNat < 2147483648 ∧ Granted kalloc vm ((sz.toNat + 4095) / 4096) newsz.toNat ∧
          ret = newsz ∧ Maps vm1.dir newsz.toNat) ∨
        (¬ (newsz.toNat < 2147483648 ∧
            Granted kalloc vm ((sz.toNat + 4095) / 4096) newsz.toNat) ∧ ret = 0)) := by
  rw [UInt32.lt_iff_toNat_lt] at below
  rw [UInt32.le_iff_toNat_le] at order
  have small : sz.toNat < 2147483648 := below
  by_cases high : newsz ≥ kernbase
  · refine ⟨0, vm, by rw [allocuvm, if_pos high], .inr ⟨?_, rfl⟩⟩
    have : 2147483648 ≤ newsz.toNat := UInt32.le_iff_toNat_le.mp high
    omega
  · have room : newsz.toNat < 2147483648 := UInt32.lt_iff_toNat_lt.mp (UInt32.not_le.mp high)
    have absent : ∀ page, (sz.toNat + 4095) / 4096 ≤ page → 4096 * page < newsz.toNat →
        vm.dir.page page = none := by
      intro page behind _
      by_contra present
      have := (maps.2 page).mp present
      omega
    obtain ⟨ret, vm1, loop, outcome⟩ :=
      @allocLoop_spec kalloc vm sz newsz _ small (Nat.le_refl _) absent
    refine ⟨ret, vm1, ?_, ?_⟩
    · rw [allocuvm, if_neg high, if_neg (by rw [UInt32.lt_iff_toNat_lt]; omega),
        pgroundup_page small, loop]
    · rcases outcome with ⟨granted, size, added⟩ | ⟨refused, size, _⟩
      · exact .inl ⟨room, granted, size, maps_added maps order added⟩
      · exact .inr ⟨fun both => refused both.2, size⟩

structure Resized (sz n sz' : UInt32) (dir : PageDir) : Prop where
  size : (sz'.toNat : Int) = sz.toNat + signed n
  told : n = 0 ∨ sz' ≠ 0
  maps : Maps dir sz'.toNat

theorem resize_up {vm : Vm} {sz : UInt32} (up : 0 < signed n) (below : sz < kernbase)
    (maps : Maps vm.dir sz.toNat) :
    ∃ sz' vm1, resize kalloc vm sz n = some (sz', vm1) ∧
      (Resized sz n sz' vm1.dir ↔ sz.toNat + signed n < 2147483648 ∧
        Granted kalloc vm ((sz.toNat + 4095) / 4096) (sz.toNat + signed n).toNat) := by
  have small : sz.toNat < 2147483648 := UInt32.lt_iff_toNat_lt.mp below
  have moved : n ≠ 0 := fun none => by simp [signed_eq_zero_iff.mpr none] at up
  have sum := @toNat_add_signed n sz (by omega) (by have := signed_lt n; omega)
  obtain ⟨ret, vm1, grown, outcome⟩ :=
    allocuvm_outcome below (UInt32.le_iff_toNat_le.mpr (by omega : sz.toNat ≤ (sz + n).toNat)) maps
  refine ⟨ret, vm1, by rw [resize, if_pos up, grown], ?_⟩
  rw [← sum, Int.toNat_natCast]
  rcases outcome with ⟨room, granted, size, maps1⟩ | ⟨refused, size⟩
  · subst size
    refine iff_of_true ⟨sum, .inr ?_, maps1⟩ ⟨by omega, granted⟩
    rw [ne_eq, ← UInt32.toNat_inj, UInt32.toNat_zero]
    omega
  · refine iff_of_false (fun right => ?_) fun both => refused ⟨by omega, both.2⟩
    exact right.told.elim moved fun other => other size

theorem resize_down {vm : Vm} {sz : UInt32} (down : signed n < 0) (below : sz < kernbase)
    (maps : Maps vm.dir sz.toNat) :
    ∃ sz' vm1, resize kalloc vm sz n = some (sz', vm1) ∧
      (Resized sz n sz' vm1.dir ↔ 0 < sz.toNat + signed n) := by
  have small : sz.toNat < 2147483648 := UInt32.lt_iff_toNat_lt.mp below
  have moved : n ≠ 0 := fun none => by simp [signed_eq_zero_iff.mpr none] at down
  refine ⟨_, _, by rw [resize, if_neg (by omega), if_pos down], ?_⟩
  by_cases wrapped : sz.toNat + signed n < 0
  · -- the sum has wrapped to a size above the old one, which is taken as it is
    have above : sz ≤ sz + n := by
      rw [UInt32.le_iff_toNat_le, UInt32.toNat_add]
      unfold signed at down wrapped
      split at down <;> simp_all <;> omega
    rw [deallocuvm, if_pos above]
    refine iff_of_false (fun right => ?_) (by omega)
    have := right.size
    simp only at this
    omega
  · have sum := @toNat_add_signed n sz (by omega) (by omega)
    have less : sz + n < sz := UInt32.lt_iff_toNat_lt.mpr (by omega)
    have cleared : Cleared (((sz + n).toNat + 4095) / 4096) sz.toNat vm.dir
        (deallocuvm vm sz (sz + n)).2.dir := deallocuvm_page less (by omega)
    have size : (deallocuvm vm sz (sz + n)).1 = sz + n := by
      rw [deallocuvm, if_neg (UInt32.not_le.mpr less)]
    have pages := maps_cleared maps (by omega) cleared
    constructor
    · intro right
      have := right.told.resolve_left moved
      rw [size, ne_eq, ← UInt32.toNat_inj, UInt32.toNat_zero] at this
      omega
    · intro left
      refine ⟨by rw [size, sum], .inr ?_, by rwa [size]⟩
      rw [size, ne_eq, ← UInt32.toNat_inj, UInt32.toNat_zero]
      omega

/-- Every call returns 0, so it is right where it did what was asked. -/
theorem inStep_iff_resized {sz : UInt32} {dir : PageDir} :
    InStep k spaces cur (signed n) (.value 0) (if n ≠ 0 ∧ sz = 0 then k else setSizes k cur sz)
      (update spaces (k.proc cur).pgdir dir) ↔ Resized (k.proc cur).sz n sz dir := by
  constructor
  · intro right
    have told : ¬ (n ≠ 0 ∧ sz = 0) := by
      intro failed
      have stays := right.shared rfl cur rfl
      rw [if_pos failed] at stays
      exact failed.1 (signed_eq_zero_iff.mp (by omega))
    have size := right.shared rfl cur rfl
    have maps := right.reported.mp rfl
    rw [if_neg told] at size
    simp only [setSizes, if_true] at size
    rw [update_self, ← size] at maps
    exact ⟨size, not_and_or.mp told |>.imp_left not_not.mp, maps⟩
  · intro right
    rw [if_neg (not_and_or.mpr (right.told.imp_left not_not.mpr))]
    exact {
      reported := by simpa [← right.size] using right.maps
      shared := fun _ p same => by simp [setSizes, same, right.size]
      others := fun _ p other => by simp [setSizes, other]
      refused := fun wrong => absurd rfl wrong }

/-- The patched `growproc` keeps the threads of an address space in step and
reports as it should exactly when there is no failure to report: memory does not
run out or reach the kernel, and something is left. -/
theorem growproc_inStep_iff (kalloc : Kalloc) (k : Kernel) (spaces : Addr → PageDir) (cur : Slot)
    (n : UInt32) (below : (k.proc cur).sz < kernbase)
    (maps : Maps (spaces (k.proc cur).pgdir) (k.proc cur).sz.toNat) :
    ∃ ret new mapped, growproc kalloc k spaces cur n = some (ret, new, mapped) ∧
      (InStep k spaces cur (signed n) ret new mapped ↔
        Met kalloc (spaces (k.proc cur).pgdir) (k.proc cur).sz (signed n)) := by
  suffices resized : ∃ sz vm1,
      resize kalloc ⟨spaces (k.proc cur).pgdir, 0, []⟩ (k.proc cur).sz n = some (sz, vm1) ∧
        (Resized (k.proc cur).sz n sz vm1.dir ↔
          Met kalloc (spaces (k.proc cur).pgdir) (k.proc cur).sz (signed n)) by
    obtain ⟨sz, vm1, done, exact⟩ := resized
    exact ⟨.value 0, _, _, by rw [growproc, done]; rfl, inStep_iff_resized.trans exact⟩
  rcases lt_trichotomy (signed n) 0 with down | zero | up
  · obtain ⟨sz, vm1, done, exact⟩ := @resize_down kalloc n ⟨_, 0, []⟩ _ down below maps
    refine ⟨sz, vm1, done, exact.trans ⟨fun left => .inr (.inr ⟨down, left⟩), ?_⟩⟩
    rintro (zero | ⟨up, _⟩ | ⟨_, left⟩) <;> omega
  · refine ⟨_, _, by rw [resize, if_neg (by omega), if_neg (by omega)], ?_⟩
    exact iff_of_true ⟨by omega, .inl (signed_eq_zero_iff.mp zero), maps⟩ (.inl zero)
  · obtain ⟨sz, vm1, done, exact⟩ := @resize_up kalloc n ⟨_, 0, []⟩ _ up below maps
    refine ⟨sz, vm1, done, exact.trans ⟨fun granted => .inr (.inl ⟨up, granted⟩), ?_⟩⟩
    rintro (zero | ⟨_, granted⟩ | ⟨down, _⟩)
    · omega
    · exact granted
    · omega

theorem allocLoop_ret {oldsz newsz : UInt32} {a : Nat} {vm : Vm} {ret : UInt32} {vm1 : Vm}
    (done : allocLoop kalloc oldsz newsz a vm = some (ret, vm1)) : ret = 0 ∨ ret = newsz := by
  fun_induction allocLoop kalloc oldsz newsz a vm with
  | case1 a vm more answer => exact .inl (by cases done; rfl)
  | case2 a vm more mem answer panic => cases done
  | case3 a vm more mem answer vm2 refused => exact .inl (by cases done; rfl)
  | case4 a vm more mem answer vm2 mapped ih => exact ih done
  | case5 a vm full => exact .inr (by cases done; rfl)

/-- No size reaches the kernel, however often memory grows and shrinks. -/
theorem growproc_below {ret : Ret} {new : Kernel} {mapped : Addr → PageDir}
    (below : ∀ p, (k.proc p).sz < kernbase)
    (done : growproc kalloc k spaces cur n = some (ret, new, mapped)) (p : Slot) :
    (new.proc p).sz < kernbase := by
  obtain ⟨⟨sz, vm1⟩, resized, same⟩ := Option.map_eq_some_iff.mp done
  have low : sz < kernbase := by
    have old := below cur
    simp only [resize, allocuvm, deallocuvm] at resized
    split_ifs at resized with up high less down more
    · cases resized
      decide
    · cases resized
      exact old
    · rcases allocLoop_ret resized with rfl | rfl
      · decide
      · exact UInt32.not_le.mp high
    · cases resized
      exact old
    · cases resized
      exact UInt32.lt_trans (UInt32.not_le.mp more) old
    · cases resized
      exact old
  cases same
  split_ifs
  · exact below p
  · simp only [setSizes]
    split_ifs
    · exact low
    · exact below p

end

def onePage : PageDir where
  table t := t = 0
  page n := if n = 0 then some ⟨12288, by decide⟩ else none
  reached n present := by
    split_ifs at present with first
    · simp [first]
    · exact absurd rfl present

theorem onePage_maps : Maps onePage 4096 := by
  refine ⟨by decide, fun n => ?_⟩
  by_cases first : n = 0
  · simp [onePage, first]
  · simp only [onePage, first, if_false, ne_eq, not_true_eq_false, false_iff]
    omega

theorem secondPage_inStep :
    ∃ ret new mapped, growproc (fun _ => some ⟨16384, by decide⟩) (boot 4096 8192)
        (fun _ => onePage) 0 4096 = some (ret, new, mapped) ∧
      InStep (boot 4096 8192) (fun _ => onePage) 0 4096 ret new mapped := by
  obtain ⟨ret, new, mapped, done, exact⟩ := growproc_inStep_iff
    (fun _ => some ⟨16384, by decide⟩) (boot 4096 8192) (fun _ => onePage) 0 4096 (by decide)
    onePage_maps
  have granted : Met (fun _ => some ⟨16384, by decide⟩) onePage 4096 4096 :=
    .inr (.inl ⟨by decide, by decide, fun _ _ => Option.some_ne_none _⟩)
  exact ⟨ret, new, mapped, done, exact.mpr granted⟩

/-- A size of zero leaves the table alone, and 0 is returned all the same. -/
theorem growproc_failed {kalloc : Kalloc} {k : Kernel} {spaces : Addr → PageDir} {cur : Slot}
    {n : UInt32} {vm : Vm} (moved : signed n ≠ 0)
    (failed : resize kalloc ⟨spaces (k.proc cur).pgdir, 0, []⟩ (k.proc cur).sz n = some (0, vm)) :
    growproc kalloc k spaces cur n = some (.value 0, k, update spaces (k.proc cur).pgdir vm.dir) ∧
      ¬ InStep k spaces cur (signed n) (.value 0) k (update spaces (k.proc cur).pgdir vm.dir) := by
  constructor
  · simp [growproc, failed, signed_eq_zero_iff.not.mp moved]
  · intro right
    have := right.shared rfl cur rfl
    omega

/-- Without memory the call still returns 0, and so it does when all of the
memory was to go: the page is gone then, and the size is the old one. -/
theorem refused_growth_returns_zero :
    (∃ mapped, growproc (fun _ => none) (boot 4096 8192) (fun _ => onePage) 0 4096 =
        some (.value 0, boot 4096 8192, mapped) ∧
      ¬ InStep (boot 4096 8192) (fun _ => onePage) 0 4096 (.value 0) (boot 4096 8192) mapped) ∧
    ∃ mapped, growproc (fun _ => none) (boot 4096 8192) (fun _ => onePage) 0 (-4096) =
        some (.value 0, boot 4096 8192, mapped) ∧
      ¬ InStep (boot 4096 8192) (fun _ => onePage) 0 (-4096) (.value 0) (boot 4096 8192) mapped ∧
      (mapped 4096).page 0 = none := by
  have grow : resize (fun _ => none) ⟨onePage, 0, []⟩ 4096 4096 =
      some (0, (deallocuvm ⟨onePage, 1, []⟩ 8192 4096).2) := by
    have loop : allocLoop (fun _ => none) 4096 8192 1 ⟨onePage, 0, []⟩ =
        some (0, (deallocuvm ⟨onePage, 1, []⟩ 8192 4096).2) := by
      rw [allocLoop, if_pos (by decide)]
    rw [resize, if_pos (by decide), allocuvm, if_neg (by decide), if_neg (by decide)]
    exact loop
  have shrink : resize (fun _ => none) ⟨onePage, 0, []⟩ 4096 (-4096) =
      some (0, deallocLoop 4096 0 ⟨onePage, 0, []⟩) := by
    rw [resize, if_neg (by decide), if_pos (by decide), deallocuvm, if_neg (by decide)]
    rfl
  have grown := @growproc_failed (fun _ => none) (boot 4096 8192) (fun _ => onePage) 0 4096
    _ (by decide) grow
  have shrunk := @growproc_failed (fun _ => none) (boot 4096 8192) (fun _ => onePage) 0 (-4096)
    _ (by decide) shrink
  refine ⟨⟨_, grown⟩, _, shrunk.1, shrunk.2, ?_⟩
  show (update (fun _ => onePage) 4096 _ 4096).page 0 = none
  rw [update_self, (deallocLoop_spec 4096 0 _).2, if_pos (by decide)]

end OsProjects.ProcessGrowth
