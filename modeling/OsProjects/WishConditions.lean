import OsProjects.WishRedirects

/-!
The branch of main in `wish.c` for `if`, with every read of the token array and
every command it starts. The positions are worked out from the first `then` and
the first `fi`, with -1 for a word that is not there. `parseIf` is what comes of
it when the reads are left out.
-/

namespace OsProjects.WishConditions

open WishLines List

/-- What the branch does: it reads the token array, prints the error message,
calls `findCbin` and `runCmd` (`none` is a null name), or reads through a null
pointer. -/
inductive Act where
  | read (index : Int)
  | error
  | run (name : Option Str) (args : List Str)
  | fault
  deriving DecidableEq

def Act.isRead : Act → Bool
  | .read _ => true
  | _ => false

def tokenAt (toks : List Str) (stray : Option Str) (index : Int) : Option Str :=
  if index < 0 then stray else toks[index.toNat]?

def position (toks : List Str) (tok : Str) : Int :=
  match findPos toks tok with
  | some pos => pos
  | none => -1

def scanned (toks : List Str) (tok : Str) : List Act :=
  (range ((findPos toks tok).getD toks.length + 1)).map fun i : Nat => .read i

def Compares (op number : Str) (ret : Int) : Prop :=
  (op = equalWord ∧ ret = atoi number) ∨ (op = differsWord ∧ ret ≠ atoi number)

instance (op number : Str) (ret : Int) : Decidable (Compares op number ret) :=
  inferInstanceAs (Decidable (_ ∨ _))

/-- The branch, with what `runCmd` returns for the first command. Where a loop
tests and copies a token, it is read once here. -/
def ifBranch (toks : List Str) (stray : Option Str) (ret : Int) : List Act :=
  let tnpos := position toks thenWord
  let fi := position toks fiWord
  scanned toks thenWord ++ scanned toks fiWord ++ .read (fi + 1) ::
    if tokenAt toks stray (fi + 1) ≠ none ∨ tnpos = -1 then [.error]
    else
      .read (tnpos - 2) ::
        match tokenAt toks stray (tnpos - 2) with
        | none => [.fault]
        | some op =>
          if op ≠ equalWord ∧ op ≠ differsWord then [.error]
          else
            let ftoks := (toks.drop 1).take (tnpos + 1 - 4).toNat
            -- the last one, `fi`, is cut off
            let stoks := (toks.drop (tnpos + 1).toNat).dropLast
            let number := (tokenAt toks stray (tnpos - 1)).getD []
            (range (tnpos + 1 - 4).toNat).map (fun i : Nat => .read (i + 1)) ++
              (range ((toks.drop (tnpos + 1).toNat).length + 1)).map
                (fun i : Nat => .read (tnpos + 1 + i)) ++
              .run ftoks.head? ftoks :: .read (tnpos - 2) :: .read (tnpos - 1) ::
                if Compares op number ret then [.run stoks.head? stoks] else []

def visible (acts : List Act) : List Act := acts.filter fun act => !act.isRead

structure Form (toks c d : List Str) (op n : Str) : Prop where
  split : toks = ifCmd :: c ++ [op, n, thenWord] ++ d ++ [fiWord]
  operator : op = equalWord ∨ op = differsWord
  first : thenWord ∉ ifCmd :: c ++ [op, n]
  last : fiWord ∉ ifCmd :: c ++ [op, n, thenWord] ++ d

/-- What is asked of a list: the two commands of the form are run, the second if
the status compares, any other list gets the error message, and no read is outside
the list and its null, no name a null. -/
structure Exact (toks : List Str) : Prop where
  runs : ∀ c d op n, Form toks c d op n → c ≠ [] → d ≠ [] → ∀ stray ret,
    visible (ifBranch toks stray ret) =
      .run c.head? c :: if Compares op n ret then [.run d.head? d] else []
  refused : (¬ ∃ c d op n, Form toks c d op n ∧ c ≠ [] ∧ d ≠ []) → ∀ stray ret,
    visible (ifBranch toks stray ret) = [.error]
  inside : ∀ stray ret (index : Int), .read index ∈ ifBranch toks stray ret →
    0 ≤ index ∧ index ≤ toks.length
  named : ∀ stray ret args, .run none args ∉ ifBranch toks stray ret

section Positions
variable {toks pre post : List Str} {tok : Str}

theorem findPos_split (split : toks = pre ++ tok :: post) (first : tok ∉ pre) :
    findPos toks tok = some pre.length := by
  have none : pre.findIdx? (· = tok) = none := by
    rw [findIdx?_eq_none_iff]
    intro x member
    simpa using fun same : x = tok => first (same ▸ member)
  rw [findPos, split, findIdx?_append, none, findIdx?_cons]
  simp

theorem findPos_none (absent : tok ∉ toks) : findPos toks tok = none := by
  rw [findPos, findIdx?_eq_none_iff]
  intro x member
  simpa using fun same : x = tok => absent (same ▸ member)

theorem position_split (split : toks = pre ++ tok :: post) (first : tok ∉ pre) :
    position toks tok = pre.length := by
  rw [position, findPos_split split first]

theorem position_none (absent : tok ∉ toks) : position toks tok = -1 := by
  rw [position, findPos_none absent]

/-- The part before the first place of a word, and the part behind it. -/
theorem exists_split (member : tok ∈ toks) : ∃ pre post, toks = pre ++ tok :: post ∧ tok ∉ pre := by
  obtain ⟨pre, post, split, first⟩ := eq_append_cons_of_mem member
  exact ⟨pre, post, split, first⟩

theorem position_lt : position toks tok < toks.length := by
  by_cases member : tok ∈ toks
  · obtain ⟨pre, post, split, first⟩ := exists_split member
    rw [position_split split first, split, length_append, length_cons]
    omega
  · rw [position_none member]
    omega

theorem scanned_inside {index : Int} (seen : .read index ∈ scanned toks tok) :
    0 ≤ index ∧ index ≤ toks.length := by
  simp only [scanned, mem_map, mem_range, Act.read.injEq] at seen
  obtain ⟨i, small, rfl⟩ := seen
  cases found : findPos toks tok with
  | none =>
    simp only [found, Option.getD_none] at small
    omega
  | some pos =>
    have := @position_lt toks tok
    simp only [position, found, Option.getD_some] at small this
    omega

theorem visible_scanned : visible (scanned toks tok) = [] := by
  simp [visible, scanned, Act.isRead]

end Positions

structure Parts (toks pre d : List Str) : Prop where
  split : toks = pre ++ thenWord :: (d ++ [fiWord])
  first : thenWord ∉ pre
  last : fiWord ∉ pre ++ thenWord :: d

section Branch
variable {toks pre d : List Str} {stray : Option Str} {ret : Int}

theorem tokenAt_natCast (index : Nat) : tokenAt toks stray index = toks[index]? := by
  rw [tokenAt, if_neg (by omega), Int.toNat_natCast]

theorem tokenAt_sub (n k : Nat) :
    tokenAt toks stray (n - k) = if n < k then stray else toks[n - k]? := by
  unfold tokenAt
  by_cases before : n < k
  · rw [if_pos (by omega), if_pos before]
  · rw [if_neg (by omega), if_neg before, show ((n : Int) - k).toNat = n - k by omega]

theorem Parts.then_position (parts : Parts toks pre d) :
    position toks thenWord = pre.length := position_split parts.split parts.first

theorem Parts.length (parts : Parts toks pre d) : toks.length = pre.length + d.length + 2 := by
  rw [parts.split]
  simp only [length_append, length_cons, length_nil]
  omega

theorem Parts.fi_position (parts : Parts toks pre d) : position toks fiWord + 1 = toks.length := by
  have split : toks = (pre ++ thenWord :: d) ++ fiWord :: [] := by simp [parts.split]
  rw [position_split split parts.last, parts.length, length_append, length_cons]
  omega

/-- The branch gets beyond its first two tests exactly for lists with the parts. -/
theorem passes_iff (head : toks.head? = some ifCmd) :
    ¬ (tokenAt toks stray (position toks fiWord + 1) ≠ none ∨ position toks thenWord = -1) ↔
      ∃ pre d, Parts toks pre d := by
  rw [not_or, not_not]
  constructor
  · rintro ⟨ends, found⟩
    have fi : fiWord ∈ toks := by
      by_contra absent
      have start : tokenAt toks stray ((0 : Nat) : Int) = none := by
        simpa [position_none absent] using ends
      rw [tokenAt_natCast, ← head?_eq_getElem?, head] at start
      cases start
    obtain ⟨body, post, split, only⟩ := exists_split fi
    have next : toks[body.length + 1]? = none := by
      rw [position_split split only] at ends
      exact (tokenAt_natCast (body.length + 1)).symm.trans (by simpa using ends)
    obtain rfl : post = [] := by
      rw [split, getElem?_append_right (by omega)] at next
      simpa using next
    have inBody : thenWord ∈ body := by
      have member : thenWord ∈ toks := by
        by_contra absent
        exact found (position_none absent)
      rw [split] at member
      simpa [thenWord, fiWord] using member
    obtain ⟨pre, d, rfl, first⟩ := exists_split inBody
    exact ⟨pre, d, by simp [split], first, only⟩
  · rintro ⟨pre, d, parts⟩
    rw [parts.fi_position, parts.then_position, tokenAt_natCast]
    exact ⟨by simp, by omega⟩

theorem ifBranch_refused (head : toks.head? = some ifCmd) (other : ¬ ∃ pre d, Parts toks pre d) :
    ifBranch toks stray ret = scanned toks thenWord ++ scanned toks fiWord ++
      [.read (position toks fiWord + 1), .error] := by
  rw [ifBranch, if_pos (not_not.mp ((passes_iff head).not.mpr other))]

def tested (toks pre d : List Str) (stray : Option Str) (ret : Int) : List Act :=
  match tokenAt toks stray (pre.length - 2) with
  | none => [.fault]
  | some op =>
    if op ≠ equalWord ∧ op ≠ differsWord then [.error]
    else
      let ftoks := (toks.drop 1).take (pre.length - 3)
      let number := (tokenAt toks stray (pre.length - 1)).getD []
      (range (pre.length - 3)).map (fun i : Nat => .read (i + 1)) ++
        (range (d.length + 2)).map (fun i : Nat => .read (pre.length + 1 + i)) ++
        .run ftoks.head? ftoks :: .read (pre.length - 2) :: .read (pre.length - 1) ::
          if Compares op number ret then [.run d.head? d] else []

theorem ifBranch_parts (head : toks.head? = some ifCmd) (parts : Parts toks pre d) :
    ifBranch toks stray ret = scanned toks thenWord ++ scanned toks fiWord ++
      .read toks.length :: .read (pre.length - 2) :: tested toks pre d stray ret := by
  have behind : toks.drop (pre.length + 1) = d ++ [fiWord] := by
    rw [parts.split, ← drop_drop]
    simp
  have first : ((pre.length : Int) + 1 - 4).toNat = pre.length - 3 := by omega
  have second : ((pre.length : Int) + 1).toNat = pre.length + 1 := by omega
  rw [ifBranch, if_neg ((passes_iff head).mpr ⟨pre, d, parts⟩), parts.fi_position,
    parts.then_position, tested]
  simp only [first, second, behind, dropLast_concat, length_append, length_cons, length_nil]

theorem tested_inside (start : 0 < pre.length) {index : Int}
    (seen : .read index ∈ tested toks pre d stray ret) :
    index = pre.length - 2 ∨ 0 ≤ index ∧ index ≤ pre.length + d.length + 2 := by
  unfold tested at seen
  split at seen
  · simp at seen
  · split_ifs at seen with refused
    · simp at seen
    · simp only [mem_append, mem_map, mem_range, mem_cons, Act.read.injEq,
        reduceCtorEq, false_or] at seen
      rcases seen with (⟨i, small, rfl⟩ | ⟨i, small, rfl⟩) | rfl | rfl | second
      · omega
      · omega
      · exact .inl rfl
      · omega
      · split at second <;> simp at second

theorem Parts.start (head : toks.head? = some ifCmd) (parts : Parts toks pre d) :
    0 < pre.length := by
  have split := parts.split
  cases pre with
  | nil =>
    rw [split, nil_append, head?_cons] at head
    exact absurd (Option.some.inj head) (by decide)
  | cons => simp

/-- The one read that may be outside is that of the operator. -/
theorem read_inside (head : toks.head? = some ifCmd) {index : Int}
    (seen : .read index ∈ ifBranch toks stray ret) :
    (0 ≤ index ∧ index ≤ toks.length) ∨ ∃ pre d, Parts toks pre d ∧ index = pre.length - 2 := by
  by_cases passes : ∃ pre d, Parts toks pre d
  · obtain ⟨pre, d, parts⟩ := passes
    have length := parts.length
    rw [ifBranch_parts head parts] at seen
    simp only [mem_append, mem_cons, Act.read.injEq] at seen
    rcases seen with (seen | seen) | rfl | rfl | seen
    · exact .inl (scanned_inside seen)
    · exact .inl (scanned_inside seen)
    · exact .inl ⟨by omega, Int.le_refl _⟩
    · exact .inr ⟨pre, d, parts, rfl⟩
    · rcases tested_inside (parts.start head) seen with rfl | inside
      · exact .inr ⟨pre, d, parts, rfl⟩
      · exact .inl ⟨inside.1, by omega⟩
  · rw [ifBranch_refused head passes] at seen
    simp only [mem_append, mem_cons, Act.read.injEq, reduceCtorEq, not_mem_nil, or_false] at seen
    have := @position_lt toks fiWord
    rcases seen with (seen | seen) | rfl
    · exact .inl (scanned_inside seen)
    · exact .inl (scanned_inside seen)
    · refine .inl ⟨?_, by omega⟩
      unfold position
      split <;> omega

@[simp] theorem visible_append (acts more : List Act) :
    visible (acts ++ more) = visible acts ++ visible more := filter_append ..

@[simp] theorem visible_read (index : Int) (acts : List Act) :
    visible (.read index :: acts) = visible acts := rfl

@[simp] theorem visible_run (name : Option Str) (args : List Str) (acts : List Act) :
    visible (.run name args :: acts) = .run name args :: visible acts := rfl

@[simp] theorem visible_error : visible [.error] = [.error] := rfl

@[simp] theorem visible_reads (count : Nat) (place : Nat → Int) :
    visible ((range count).map fun i => .read (place i)) = [] := by
  simp [visible, Act.isRead]

theorem mem_visible_iff {act : Act} (acts : List Act) (seen : act.isRead = false) :
    act ∈ visible acts ↔ act ∈ acts := by
  simp [visible, seen]

theorem visible_refused (head : toks.head? = some ifCmd) (other : ¬ ∃ pre d, Parts toks pre d) :
    visible (ifBranch toks stray ret) = [.error] := by
  rw [ifBranch_refused head other]
  simp [visible_scanned]

theorem visible_parts (head : toks.head? = some ifCmd) (parts : Parts toks pre d) :
    visible (ifBranch toks stray ret) = visible (tested toks pre d stray ret) := by
  rw [ifBranch_parts head parts]
  simp [visible_scanned]

/-- What stands before the first `then` of a list that starts with `if`. -/
theorem pre_cases (head : pre.head? = some ifCmd) :
    pre = [ifCmd] ∨ (∃ x, pre = [ifCmd, x]) ∨ ∃ c op n, pre = ifCmd :: c ++ [op, n] := by
  obtain ⟨rest, rfl⟩ : ∃ rest, pre = ifCmd :: rest := by
    cases pre with
    | nil => cases head
    | cons first rest => exact ⟨rest, by rw [Option.some.inj head]⟩
  rcases eq_nil_or_concat rest with rfl | ⟨front, n, rfl⟩
  · exact .inl rfl
  · rcases eq_nil_or_concat front with rfl | ⟨c, op, rfl⟩
    · exact .inr (.inl ⟨n, rfl⟩)
    · exact .inr (.inr ⟨c, op, n, by simp⟩)

theorem Parts.head (parts : Parts toks pre d) (head : toks.head? = some ifCmd) :
    pre.head? = some ifCmd := by
  have start := parts.start head
  rw [parts.split, head?_append_of_ne_nil _ (length_pos_iff.mp start)] at head
  exact head

/-- Two words before `then` and a command, or none, before them. -/
theorem visible_tested {c : List Str} {op n : Str} (parts : Parts toks (ifCmd :: c ++ [op, n]) d) :
    visible (tested toks (ifCmd :: c ++ [op, n]) d stray ret) =
      if op ≠ equalWord ∧ op ≠ differsWord then [.error]
      else .run c.head? c :: if Compares op n ret then [.run d.head? d] else [] := by
  have split := parts.split
  have size : (ifCmd :: c ++ [op, n]).length = c.length + 3 := by simp
  have opAt : tokenAt toks stray (((c.length + 3 : Nat) : Int) - 2) = some op := by
    rw [show ((c.length + 3 : Nat) : Int) - 2 = ((c.length + 1 : Nat) : Int) by omega,
      tokenAt_natCast, split]
    simp
  have numberAt : tokenAt toks stray (((c.length + 3 : Nat) : Int) - 1) = some n := by
    rw [show ((c.length + 3 : Nat) : Int) - 1 = ((c.length + 2 : Nat) : Int) by omega,
      tokenAt_natCast, split]
    simp
  have front : (toks.drop 1).take (c.length + 3 - 3) = c := by
    rw [split]
    simp
  simp only [tested, size, opAt, numberAt, front, Option.getD_some]
  split
  · rfl
  · simp only [visible_append, visible_reads, visible_run, visible_read, nil_append]
    split <;> rfl

theorem visible_third {x : Str} (parts : Parts toks [ifCmd, x] d) :
    visible (tested toks [ifCmd, x] d stray ret) = [.error] := by
  have opAt : tokenAt toks stray (([ifCmd, x].length : Int) - 2) = some ifCmd := by
    rw [show ([ifCmd, x].length : Int) - 2 = ((0 : Nat) : Int) by simp, tokenAt_natCast, parts.split]
    rfl
  simp only [tested, opAt]
  rw [if_pos (by decide)]
  rfl

theorem Form.parts {c : List Str} {op n : Str} (form : Form toks c d op n) :
    Parts toks (ifCmd :: c ++ [op, n]) d where
  split := by simp [form.split]
  first := form.first
  last := by simpa using form.last

theorem Parts.form {c : List Str} {op n : Str} (parts : Parts toks (ifCmd :: c ++ [op, n]) d)
    (operator : op = equalWord ∨ op = differsWord) : Form toks c d op n where
  split := by simp [parts.split]
  operator := operator
  first := parts.first
  last := by simpa using parts.last

theorem visible_form {c : List Str} {op n : Str} (head : toks.head? = some ifCmd)
    (form : Form toks c d op n) :
    visible (ifBranch toks stray ret) =
      .run c.head? c :: if Compares op n ret then [.run d.head? d] else [] := by
  rw [visible_parts head form.parts, visible_tested form.parts, if_neg]
  rcases form.operator with rfl | rfl <;> simp

/-- All that is seen of the branch: a list that starts `if then` apart, it is the
commands of the form or the error message. -/
theorem visible_cases (head : toks.head? = some ifCmd) (second : ¬ ∃ d, Parts toks [ifCmd] d) :
    (∃ c d op n, Form toks c d op n) ∨
      ∀ stray ret, visible (ifBranch toks stray ret) = [.error] := by
  by_cases passes : ∃ pre d, Parts toks pre d
  · obtain ⟨pre, d, parts⟩ := passes
    rcases pre_cases (parts.head head) with rfl | ⟨x, rfl⟩ | ⟨c, op, n, rfl⟩
    · exact absurd ⟨d, parts⟩ second
    · exact .inr fun stray ret => by rw [visible_parts head parts, visible_third parts]
    · by_cases operator : op = equalWord ∨ op = differsWord
      · exact .inl ⟨c, d, op, n, parts.form operator⟩
      · refine .inr fun stray ret => ?_
        rw [visible_parts head parts, visible_tested parts, if_pos (by rwa [← not_or])]
  · exact .inr fun stray ret => visible_refused head passes

theorem parseIf_refused (head : toks.head? = some ifCmd) (fails : ¬ ∃ pre d, Parts toks pre d) :
    parseIf toks stray = .refused := by
  have refused := not_not.mp ((@passes_iff toks stray head).not.mpr fails)
  unfold parseIf
  cases fi : findPos toks fiWord with
  | none => rfl
  | some pos =>
    simp only [position, fi] at refused
    rw [show (pos : Int) + 1 = ((pos + 1 : Nat) : Int) by omega, tokenAt_natCast] at refused
    cases next : toks[pos + 1]? with
    | some tok => simp only [next, Option.isSome_some, if_true]
    | none =>
      cases found : findPos toks thenWord with
      | none => simp only [next, Option.isSome_none, Bool.false_eq_true, if_false]
      | some tnpos =>
        simp only [next, found, ne_eq, not_true_eq_false, false_or] at refused
        omega

theorem Parts.parseIf_eq (parts : Parts toks pre d) (start : 0 < pre.length) :
    parseIf toks stray =
      match tokenAt toks stray (pre.length - 2) with
      | none => .fault
      | some op =>
        if op ≠ equalWord ∧ op ≠ differsWord then .refused
        else
          .test ((toks.drop 1).take (pre.length - 3)) op
            ((tokenAt toks stray (pre.length - 1)).getD []) d := by
  have fi := findPos_split (show toks = (pre ++ thenWord :: d) ++ fiWord :: [] by
    simp [parts.split]) parts.last
  have ends : toks[(pre ++ thenWord :: d).length + 1]? = none := by
    rw [getElem?_eq_none_iff, parts.length]
    simp only [length_append, length_cons]
    omega
  have opAt : tokenAt toks stray (pre.length - 2) =
      if pre.length < 2 then stray else toks[pre.length - 2]? := tokenAt_sub pre.length 2
  have numberAt : tokenAt toks stray (pre.length - 1) = toks[pre.length - 1]? :=
    (tokenAt_sub pre.length 1).trans (if_neg (by omega))
  have behind : (toks.drop (pre.length + 1)).dropLast = d := by
    rw [parts.split, ← drop_drop]
    simp
  rw [parseIf, fi, findPos_split parts.split parts.first, numberAt]
  cases found : tokenAt toks stray (pre.length - 2) with
  | none =>
    rw [opAt] at found
    simp only [ends, Option.isSome_none, Bool.false_eq_true, if_false, found]
  | some op =>
    rw [opAt] at found
    simp only [ends, Option.isSome_none, Bool.false_eq_true, if_false, found, behind]

/-- Without its reads the branch is `parseIf` and the running of what that gives. -/
theorem visible_parseIf (head : toks.head? = some ifCmd) :
    visible (ifBranch toks stray ret) =
      match parseIf toks stray with
      | .refused => [.error]
      | .test first op number second =>
        .run first.head? first :: if Compares op number ret then [.run second.head? second] else []
      | _ => [.fault] := by
  by_cases passes : ∃ pre d, Parts toks pre d
  · obtain ⟨pre, d, parts⟩ := passes
    rw [visible_parts head parts, tested, parts.parseIf_eq (parts.start head)]
    cases tokenAt toks stray (pre.length - 2) with
    | none => rfl
    | some op =>
      simp only
      split
      · rfl
      · simp only [visible_append, visible_reads, visible_run, visible_read, nil_append]
        split <;> rfl
  · rw [visible_refused head passes, parseIf_refused head passes]

theorem exists_compares {op n : Str} (operator : op = equalWord ∨ op = differsWord) :
    ∃ ret, Compares op n ret := by
  rcases operator with rfl | rfl
  · exact ⟨atoi n, .inl ⟨rfl, rfl⟩⟩
  · exact ⟨atoi n + 1, .inr ⟨rfl, by omega⟩⟩

end Branch

/-- The branch does what is asked exactly if the list neither starts `if then`
nor has an empty command in the form. -/
theorem ifBranch_exact_iff (toks : List Str) (head : toks.head? = some ifCmd) :
    Exact toks ↔ (¬ ∃ d, Parts toks [ifCmd] d) ∧
        ¬ ∃ c d op n, Form toks c d op n ∧ (c = [] ∨ d = []) := by
  constructor
  · intro exact
    constructor
    · rintro ⟨d, parts⟩
      have outside := exact.inside none 0 (-1) (by rw [ifBranch_parts head parts]; simp)
      omega
    · rintro ⟨c, d, op, n, form, empty⟩
      obtain ⟨ret, compares⟩ := @exists_compares op n form.operator
      have seen := @visible_form toks d none ret c op n head form
      rw [if_pos compares] at seen
      rcases empty with rfl | rfl
      · exact exact.named none ret [] ((mem_visible_iff _ rfl).mp (by simp [seen]))
      · exact exact.named none ret [] ((mem_visible_iff _ rfl).mp (by simp [seen]))
  · rintro ⟨second, full⟩
    have filled : ∀ {c d op n}, Form toks c d op n → c ≠ [] ∧ d ≠ [] := by
      intro c d op n form
      rw [← not_or]
      exact fun empty => full ⟨c, d, op, n, form, empty⟩
    refine ⟨fun c d op n form _ _ stray ret => visible_form head form, fun other stray ret => ?_,
      fun stray ret index seen => ?_, fun stray ret args seen => ?_⟩
    · rcases visible_cases head second with ⟨c, d, op, n, form⟩ | refused
      · exact absurd ⟨c, d, op, n, form, filled form⟩ other
      · exact refused stray ret
    · rcases read_inside head seen with inside | ⟨pre, d, parts, rfl⟩
      · exact inside
      · have length := parts.length
        have : pre.length ≠ 1 := by
          intro single
          rcases pre_cases (parts.head head) with rfl | ⟨x, rfl⟩ | ⟨c, op, n, rfl⟩
          · exact second ⟨d, parts⟩
          · simp at single
          · simp at single
        have := parts.start head
        omega
    · rw [← mem_visible_iff _ rfl] at seen
      rcases visible_cases head second with ⟨c, d, op, n, form⟩ | refused
      · obtain ⟨first, rest, rfl⟩ := exists_cons_of_ne_nil (filled form).1
        obtain ⟨first', rest', rfl⟩ := exists_cons_of_ne_nil (filled form).2
        rw [visible_form head form] at seen
        split at seen <;> simp at seen
      · rw [refused stray ret] at seen
        simp at seen

def plainTest : List Str :=
  [ifCmd, [108, 115], equalWord, [48], thenWord, [108, 115], fiWord]

theorem plainTest_exact : Exact plainTest := by
  refine (ifBranch_exact_iff plainTest rfl).mpr ⟨?_, ?_⟩
  · rintro ⟨d, parts⟩
    have := parts.then_position
    revert this
    decide
  · rintro ⟨c, d, op, n, form, empty⟩
    have place : (4 : Int) = (ifCmd :: c ++ [op, n]).length := form.parts.then_position
    have length : 7 = (ifCmd :: c ++ [op, n]).length + d.length + 2 := form.parts.length
    rcases empty with rfl | rfl
    · simp at place
    · simp only [cons_append, length_cons, length_append, length_nil]
        at length place
      omega

/-- `if then fi` reads before the array, and in `if == 0 then ls fi` and
`if ls == 0 then fi` a null is the name of a command. -/
theorem empty_commands_are_not_refused :
    ¬ Exact [ifCmd, thenWord, fiWord] ∧
      visible (ifBranch [ifCmd, equalWord, [48], thenWord, [108, 115], fiWord] none 0) =
        [.run none [], .run (some [108, 115]) [[108, 115]]] ∧
      visible (ifBranch [ifCmd, [108, 115], equalWord, [48], thenWord, fiWord] none 0) =
        [.run (some [108, 115]) [[108, 115]], .run none []] := by
  refine ⟨fun exact => ?_, by decide, by decide⟩
  exact absurd (exact.inside none 0 (-1) (by decide)) (by decide)

end OsProjects.WishConditions
