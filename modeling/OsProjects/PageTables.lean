import OsProjects.ThreadTable
import Mathlib.Data.Finset.Card
import Mathlib.Order.Interval.Finset.Nat
import Mathlib.Algebra.Order.Interval.Finset.SuccPred
import Mathlib.Data.Nat.SuccPred

/-!
User memory in xv6 (`vm.c`): a page directory with its page tables, and
`allocuvm` and `deallocuvm`. A page is named by its number, the address divided
by 4096, and a page table by the number of its directory entry. The answers of
`kalloc` are an argument, so it may fail at any point. A page table that was
taken stays, also when the pages in it are given back.
-/

namespace OsProjects.PageTables

open ThreadTable Function

abbrev Frame := { addr : Addr // addr ≠ 0 }

structure PageDir where
  table : Nat → Bool
  page : Nat → Option Frame
  reached : ∀ n, page n ≠ none → table (n / 1024) = true

namespace PageDir

def addTable (dir : PageDir) (t : Nat) : PageDir where
  table := update dir.table t true
  page := dir.page
  reached n present := by
    by_cases same : n / 1024 = t
    · rw [same, update_self]
    · rw [update_of_ne same]
      exact dir.reached n present

def map (dir : PageDir) (n : Nat) (mem : Frame) : PageDir where
  table := update dir.table (n / 1024) true
  page := update dir.page n (some mem)
  reached m present := by
    by_cases same : m / 1024 = n / 1024
    · rw [same, update_self]
    · have other : m ≠ n := fun equal => same (by rw [equal])
      rw [update_of_ne other] at present
      rw [update_of_ne same]
      exact dir.reached m present

def unmap (dir : PageDir) (n : Nat) : PageDir where
  table := dir.table
  page := update dir.page n none
  reached m present := by
    by_cases same : m = n
    · rw [same, update_self] at present
      exact absurd rfl present
    · rw [update_of_ne same] at present
      exact dir.reached m present
end PageDir

/-- What a call works on: the directory, how often `kalloc` was called, and the
pages given to `kfree`. -/
structure Vm where
  dir : PageDir
  asked : Nat
  freed : List Frame

abbrev Kalloc := Nat → Option Frame

/-- Whether a page has an entry in a page table. With `alloc` a missing table is
added, for which `kalloc` may have no page. -/
def walkpgdir (kalloc : Kalloc) (vm : Vm) (n : Nat) (alloc : Bool) : Bool × Vm :=
  if vm.dir.table (n / 1024) then (true, vm)
  else if alloc then
    match kalloc vm.asked with
    | none => (false, { vm with asked := vm.asked + 1 })
    | some _ =>
      (true, { vm with dir := vm.dir.addTable (n / 1024), asked := vm.asked + 1 })
  else (false, vm)

/-- `mappages` for one page. The outer `none` is the panic of a second mapping. -/
def mappages (kalloc : Kalloc) (vm : Vm) (n : Nat) (mem : Frame) : Option (Bool × Vm) :=
  match walkpgdir kalloc vm n true with
  | (false, vm) => some (false, vm)
  | (true, vm) =>
    if vm.dir.page n ≠ none then none else some (true, { vm with dir := vm.dir.map n mem })

def pgroundup (addr : UInt32) : UInt32 := pgrounddown (addr + 4095)

def deallocLoop (oldsz a : Nat) (vm : Vm) : Vm :=
  if 4096 * a < oldsz then
    if (walkpgdir (fun _ => none) vm a false).1 then
      match vm.dir.page a with
      | none => deallocLoop oldsz (a + 1) vm
      | some mem =>
        deallocLoop oldsz (a + 1) { vm with dir := vm.dir.unmap a, freed := vm.freed ++ [mem] }
    else deallocLoop oldsz ((a / 1024 + 1) * 1024) vm
  else vm
termination_by oldsz - 4096 * a
decreasing_by
  all_goals omega

def deallocuvm (vm : Vm) (oldsz newsz : UInt32) : UInt32 × Vm :=
  if newsz ≥ oldsz then (oldsz, vm)
  else (newsz, deallocLoop oldsz.toNat ((pgroundup newsz).toNat / 4096) vm)

def kernbase : UInt32 := 0x80000000

/-- The loop of `allocuvm` from page `a` on. Without memory the pages it got so
far are given back. -/
def allocLoop (kalloc : Kalloc) (oldsz newsz : UInt32) (a : Nat) (vm : Vm) :
    Option (UInt32 × Vm) :=
  if 4096 * a < newsz.toNat then
    match kalloc vm.asked with
    | none => some (0, (deallocuvm { vm with asked := vm.asked + 1 } newsz oldsz).2)
    | some mem =>
      match mappages kalloc { vm with asked := vm.asked + 1 } a mem with
      | none => none
      | some (false, vm) =>
        let vm := (deallocuvm vm newsz oldsz).2
        some (0, { vm with freed := vm.freed ++ [mem] })
      | some (true, vm) => allocLoop kalloc oldsz newsz (a + 1) vm
  else some (newsz, vm)
termination_by newsz.toNat - 4096 * a
decreasing_by omega

def allocuvm (kalloc : Kalloc) (vm : Vm) (oldsz newsz : UInt32) : Option (UInt32 × Vm) :=
  if newsz ≥ kernbase then some (0, vm)
  else if newsz < oldsz then some (oldsz, vm)
  else allocLoop kalloc oldsz newsz ((pgroundup oldsz).toNat / 4096) vm

/-- How often `kalloc` is called to add the pages from `a` on: once for each of
them, and once for each page table that is missing. -/
def needed (table : Nat → Bool) (a newsz : Nat) : Nat :=
  (Finset.Ico a ((newsz + 4095) / 4096)).card +
    (((Finset.Ico a ((newsz + 4095) / 4096)).image (· / 1024)).filter
      fun t => table t = false).card

theorem needed_done {table : Nat → Bool} {a newsz : Nat} (done : ¬ 4096 * a < newsz) :
    needed table a newsz = 0 := by
  have empty : Finset.Ico a ((newsz + 4095) / 4096) = ∅ := Finset.Ico_eq_empty (by omega)
  simp [needed, empty]

theorem needed_next {table : Nat → Bool} {a newsz : Nat} (more : 4096 * a < newsz) :
    needed table a newsz = (if table (a / 1024) then 1 else 2) +
        needed (update table (a / 1024) true) (a + 1) newsz := by
  have split : Finset.Ico a ((newsz + 4095) / 4096) =
      insert a (Finset.Ico (a + 1) ((newsz + 4095) / 4096)) :=
    (Finset.insert_Ico_add_one_left_eq_Ico (by omega)).symm
  have fresh : a ∉ Finset.Ico (a + 1) ((newsz + 4095) / 4096) := by simp
  simp only [needed, split, Finset.card_insert_of_notMem fresh, Finset.image_insert]
  generalize (Finset.Ico (a + 1) ((newsz + 4095) / 4096)).image (· / 1024) = rest
  cases there : table (a / 1024) with
  | true =>
    have same : update table (a / 1024) true = table := by
      rw [← there, update_eq_self]
    rw [same, Finset.filter_insert, if_neg (by simp [there]), if_pos rfl]
    omega
  | false =>
    have others : rest.filter (fun t => update table (a / 1024) true t = false) =
        ((insert (a / 1024) rest).filter fun t => table t = false).erase (a / 1024) := by
      ext t
      by_cases same : t = a / 1024
      · simp [same]
      · simp [same]
    have member : a / 1024 ∈ (insert (a / 1024) rest).filter (fun t => table t = false) := by
      simp [there]
    have pos := Finset.card_pos.mpr ⟨_, member⟩
    rw [others, Finset.card_erase_of_mem member, if_neg (by simp)]
    omega

theorem deallocLoop_spec (oldsz a : Nat) (vm : Vm) :
    (deallocLoop oldsz a vm).dir.table = vm.dir.table ∧ ∀ n, (deallocLoop oldsz a vm).dir.page n =
        if a ≤ n ∧ 4096 * n < oldsz then none else vm.dir.page n := by
  fun_induction deallocLoop oldsz a vm with
  | case1 a vm more there none ih =>
    refine ⟨ih.1, fun n => ?_⟩
    rw [ih.2]
    by_cases same : n = a
    · subst same
      simp [none]
    · exact if_congr (by omega) rfl rfl
  | case2 a vm more there mem found ih =>
    refine ⟨ih.1, fun n => ?_⟩
    rw [ih.2]
    by_cases same : n = a
    · subst same
      simp [PageDir.unmap, more]
    · simp only [PageDir.unmap, update_of_ne same]
      exact if_congr (by omega) rfl rfl
  | case3 a vm more missing ih =>
    -- no page of a missing table is present
    have empty : ∀ n, n / 1024 = a / 1024 → vm.dir.page n = none := by
      intro n inside
      by_contra present
      have there := vm.dir.reached n present
      rw [inside] at there
      exact missing (by simp [walkpgdir, there])
    refine ⟨ih.1, fun n => ?_⟩
    rw [ih.2]
    by_cases inside : n / 1024 = a / 1024
    · simp [empty n inside]
    · exact if_congr (by omega) rfl rfl
  | case4 a vm done =>
    refine ⟨rfl, fun n => ?_⟩
    rw [if_neg (by omega)]

theorem pgroundup_page {sz : UInt32} (small : sz.toNat < 2147483648) :
    (pgroundup sz).toNat / 4096 = (sz.toNat + 4095) / 4096 := by
  have sum : (sz + 4095).toNat = sz.toNat + 4095 := by
    rw [UInt32.toNat_add]
    exact Nat.mod_eq_of_lt (by show sz.toNat + 4095 < 4294967296; omega)
  have rest : ((sz + 4095) % 4096).toNat = (sz.toNat + 4095) % 4096 := by
    rw [UInt32.toNat_mod, sum]
    rfl
  have below : (sz + 4095) % 4096 ≤ sz + 4095 := by
    rw [UInt32.le_iff_toNat_le, rest, sum]
    omega
  rw [pgroundup, pgrounddown, UInt32.toNat_sub_of_le _ _ below, rest, sum]
  omega

section Growth
variable {kalloc : Kalloc} {vm : Vm}

def Granted (kalloc : Kalloc) (vm : Vm) (a newsz : Nat) : Prop :=
  ∀ i < needed vm.dir.table a newsz, kalloc (vm.asked + i) ≠ none

theorem granted_next {vm1 : Vm} {a newsz : Nat} (more : 4096 * a < newsz)
    (table : vm1.dir.table = update vm.dir.table (a / 1024) true)
    (asked : vm1.asked = vm.asked + if vm.dir.table (a / 1024) then 1 else 2) :
    Granted kalloc vm a newsz ↔
      kalloc vm.asked ≠ none ∧ (vm.dir.table (a / 1024) = false → kalloc (vm.asked + 1) ≠ none) ∧
        Granted kalloc vm1 (a + 1) newsz := by
  simp only [Granted, needed_next more, table, asked]
  cases there : vm.dir.table (a / 1024) with
  | true =>
    constructor
    · intro all
      refine ⟨all 0 (by simp), by simp, fun i inside => ?_⟩
      have := all (i + 1) (by simp only [if_true]; omega)
      simpa [Nat.add_assoc, Nat.add_comm 1 i] using this
    · rintro ⟨first, _, later⟩ i inside
      cases i with
      | zero => exact first
      | succ i =>
        have := later i (by simp only [if_true] at inside; omega)
        simpa [Nat.add_assoc, Nat.add_comm 1 i] using this
  | false =>
    constructor
    · intro all
      refine ⟨all 0 (by simp), fun _ => all 1 (by simp; omega), fun i inside => ?_⟩
      have := all (i + 2) (by simp; omega)
      simpa [Nat.add_assoc, Nat.add_comm 2 i] using this
    · rintro ⟨first, second, later⟩ i inside
      rcases i with _ | _ | i
      · exact first
      · exact second rfl
      · have := later i (by simp at inside; omega)
        simpa [Nat.add_assoc, Nat.add_comm 2 i] using this

theorem granted_done {a newsz : Nat} (done : ¬ 4096 * a < newsz) : Granted kalloc vm a newsz := by
  intro i inside
  rw [needed_done done] at inside
  exact absurd inside (Nat.not_lt_zero i)

/-- What `deallocuvm` leaves of an allocation that did not get all its pages. -/
theorem deallocuvm_page {oldsz newsz : UInt32} (order : oldsz < newsz)
    (small : oldsz.toNat < 2147483648) (n : Nat) :
    (deallocuvm vm newsz oldsz).2.dir.page n =
      if (oldsz.toNat + 4095) / 4096 ≤ n ∧ 4096 * n < newsz.toNat then none
      else vm.dir.page n := by
  rw [deallocuvm, if_neg (UInt32.not_le.mpr order)]
  simp only
  rw [(deallocLoop_spec _ _ vm).2, pgroundup_page small]

structure Added (a newsz : Nat) (old new : PageDir) : Prop where
  present : ∀ n, a ≤ n → 4096 * n < newsz → new.page n ≠ none
  others : ∀ n, ¬ (a ≤ n ∧ 4096 * n < newsz) → new.page n = old.page n

def Cleared (first newsz : Nat) (old new : PageDir) : Prop :=
  ∀ n, new.page n = if first ≤ n ∧ 4096 * n < newsz then none else old.page n

/-- `mappages` for a page that is not present, by the table it goes to. -/
theorem mappages_fresh {n : Nat} (mem : Frame) (absent : vm.dir.page n = none) :
    (vm.dir.table (n / 1024) = false ∧ kalloc vm.asked = none ∧
        mappages kalloc vm n mem = some (false, { vm with asked := vm.asked + 1 })) ∨
      ∃ vm1, mappages kalloc vm n mem = some (true, vm1) ∧
        (vm.dir.table (n / 1024) = false → kalloc vm.asked ≠ none) ∧
        vm1.dir.table = update vm.dir.table (n / 1024) true ∧
        vm1.dir.page = update vm.dir.page n (some mem) ∧
        vm1.asked = vm.asked + if vm.dir.table (n / 1024) then 0 else 1 := by
  cases there : vm.dir.table (n / 1024) with
  | true =>
    refine .inr ⟨{ vm with dir := vm.dir.map n mem }, ?_, by simp, rfl, rfl, by simp⟩
    simp [mappages, walkpgdir, there, absent]
  | false =>
    cases answer : kalloc vm.asked with
    | none =>
      refine .inl ⟨rfl, rfl, ?_⟩
      simp [mappages, walkpgdir, there, answer]
    | some frame =>
      refine .inr ⟨{ vm with
        dir := (vm.dir.addTable (n / 1024)).map n mem, asked := vm.asked + 1 },
        ?_, by simp, ?_, rfl, by simp⟩
      · simp [mappages, walkpgdir, there, answer, PageDir.addTable, absent]
      · simp [PageDir.map, PageDir.addTable]

/-- `allocLoop` gets all its pages, or gives back those it got. -/
theorem allocLoop_spec {vm : Vm} {oldsz newsz : UInt32} {a : Nat}
    (small : oldsz.toNat < 2147483648) (start : (oldsz.toNat + 4095) / 4096 ≤ a)
    (absent : ∀ n, a ≤ n → 4096 * n < newsz.toNat → vm.dir.page n = none) :
    ∃ ret vm1, allocLoop kalloc oldsz newsz a vm = some (ret, vm1) ∧
      ((Granted kalloc vm a newsz.toNat ∧ ret = newsz ∧ Added a newsz.toNat vm.dir vm1.dir) ∨
        (¬ Granted kalloc vm a newsz.toNat ∧ ret = 0 ∧
          Cleared ((oldsz.toNat + 4095) / 4096) newsz.toNat vm.dir vm1.dir)) := by
  by_cases more : 4096 * a < newsz.toNat
  case neg =>
    refine ⟨newsz, vm, ?_, .inl ⟨granted_done more, rfl, ?_, fun _ _ => rfl⟩⟩
    · rw [allocLoop, if_neg more]
    · intro n behind inside
      omega
  have order : oldsz < newsz := UInt32.lt_iff_toNat_lt.mpr (by omega)
  have absentHere := absent a (Nat.le_refl a) more
  cases answer : kalloc vm.asked with
  | none =>
    refine ⟨0, _, by rw [allocLoop, if_pos more, answer], .inr ⟨?_, rfl, ?_⟩⟩
    · intro granted
      exact (granted 0 (by rw [needed_next more]; split <;> omega)) answer
    · exact deallocuvm_page order small
  | some mem =>
    rcases @mappages_fresh kalloc { vm with asked := vm.asked + 1 } a mem absentHere with
      ⟨missing, refused, result⟩ | ⟨vm1, result, given, table, page, asked⟩
    · refine ⟨0, _, by rw [allocLoop, if_pos more, answer]; simp only [result]; rfl,
        .inr ⟨?_, rfl, ?_⟩⟩
      · intro granted
        refine granted 1 ?_ refused
        rw [needed_next more, if_neg (by simp only at missing; simp [missing])]
        omega
      · exact deallocuvm_page order small
    · have step := @granted_next kalloc vm vm1 a newsz.toNat more table
        (by rw [asked]; simp only; split <;> omega)
      have absentNext : ∀ n, a + 1 ≤ n → 4096 * n < newsz.toNat → vm1.dir.page n = none := by
        intro n behind inside
        rw [page, update_of_ne (by omega)]
        exact absent n (by omega) inside
      obtain ⟨ret, vm2, result2, outcome⟩ := allocLoop_spec small (by omega) absentNext
      refine ⟨ret, vm2, by rw [allocLoop, if_pos more, answer]; simp only [result, result2], ?_⟩
      rcases outcome with ⟨granted, done, added⟩ | ⟨refused, done, cleared⟩
      · refine .inl ⟨step.mpr ⟨by simp [answer], given, granted⟩, done, ?_, ?_⟩
        · intro n behind inside
          by_cases same : n = a
          · subst same
            rw [added.others n (by omega), page, update_self]
            exact Option.some_ne_none mem
          · exact added.present n (by omega) inside
        · intro n outside
          rw [added.others n (by omega), page, update_of_ne (by omega)]
      · refine .inr ⟨fun granted => refused (step.mp granted).2.2, done, fun n => ?_⟩
        rw [cleared n, page]
        by_cases same : n = a
        · subst same
          rw [if_pos ⟨start, more⟩, if_pos ⟨start, more⟩]
        · rw [update_of_ne same]
termination_by newsz.toNat - 4096 * a
decreasing_by omega

end Growth

end OsProjects.PageTables
