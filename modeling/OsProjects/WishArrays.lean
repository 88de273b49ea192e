import OsProjects.WishConditions

/-!
The stores of `wish.c` into its arrays while it handles a line: the copy of the
line for a redirection, the token slots, the slots and texts of the path, the
copies of the words of an `if`, and the command path of `findCbin`. A `strcpy`
stores the text and its NUL. What `strtok` stores is inside the text it cuts and
is left out. From one line to the next the path is kept.
-/

namespace OsProjects.WishArrays

open Runs WishLines WishRedirects WishConditions WishProcesses List

inductive Area where
  | rdout
  | lineCopy
  | toks
  | paths
  | path (j : Nat)
  | ftoks
  | ftok (i : Nat)
  | stoks
  | stok (i : Nat)
  | cbin
  deriving DecidableEq

def Area.size : Area → Nat
  | .rdout => 100
  | .lineCopy => 1000
  | .toks => 128
  | .paths => 50
  | .path j => if j < 50 then 200 else 0
  | .ftoks => 128
  | .ftok i => if i < 128 then 100 else 0
  | .stoks => 128
  | .stok i => if i < 128 then 100 else 0
  | .cbin => 300

structure Store where
  area : Area
  index : Nat
  deriving DecidableEq

def Store.Inside (store : Store) : Prop := store.index < store.area.size

instance (store : Store) : Decidable store.Inside :=
  inferInstanceAs (Decidable (store.index < store.area.size))

def copied (area : Area) (start : Nat) (text : Str) : List Store :=
  (range (text.length + 1)).map fun i => ⟨area, start + i⟩

def joined (path cmd : Str) : Str :=
  (if path.getLast? = some 47 then path else path ++ [47]) ++ cmd

def findCbinStores (access : Str → Bool) (cmd : Option Str) : List Str → List Store
  | [] => []
  | path :: rest =>
    copied .cbin 0 path ++
      (if path.getLast? = some 47 then [] else copied .cbin path.length [47]) ++
      match cmd with
      | none => []
      | some cmd =>
        copied .cbin (joined path []).length cmd ++
          if access (joined path cmd) then []
          else ⟨.cbin, 0⟩ :: findCbinStores access (some cmd) rest

def pathStores : Nat → List Str → List Store
  | j, [] => [⟨.paths, j⟩]
  | j, arg :: rest => copied (.path j) 0 arg ++ pathStores (j + 1) rest

def wordStores (slot : Nat → Area) : Nat → List Str → List Store
  | _, [] => []
  | i, tok :: rest => copied (slot i) 0 tok ++ wordStores slot (i + 1) rest

/-- A line, and what main is told by the system while it handles it: what lies
before the token array, which files are executable at the two calls of
`findCbin`, and what the first command of an `if` returns. -/
structure Input where
  line : Str
  stray : Option Str
  access : Str → Bool
  later : Str → Bool
  ret : Int

def ifStores (paths : List Str) (input : Input) (first : List Str) (op number : Str)
    (second : List Str) : List Store :=
  wordStores .ftok 0 first ++ ⟨.ftoks, first.length⟩ ::
    -- `fi` is copied too, and then cut off
    (wordStores .stok 0 (second ++ [fiWord]) ++ ⟨.stoks, second.length⟩ ::
      ⟨.cbin, 0⟩ :: (findCbinStores input.access first.head? paths ++
        -- a null name with a path to try ends the shell
        if (first ≠ [] ∨ paths = []) ∧ Compares op number input.ret
        then ⟨.cbin, 0⟩ :: findCbinStores input.later second.head? paths else []))

def redirectStores (line : Str) : List Store :=
  ⟨.rdout, 0⟩ ::
    if redirection ∈ line then
      match strtok [redirection] line with
      | some (command, _) => copied .lineCopy 0 command
      | none => []
    else []

def lineStores (paths : List Str) (input : Input) : List Store :=
  redirectStores input.line ++
    match redirect input.line with
    | none => []
    | some (command, _) =>
      (range ((ltoks command).length + 1)).map (fun i => ⟨.toks, i⟩) ++
        match parseLine input.line input.stray with
        | .path args => pathStores 0 args
        | .command toks _ => ⟨.cbin, 0⟩ :: findCbinStores input.access toks.head? paths
        | .test first op number second => ifStores paths input first op number second
        | _ => []

structure Session where
  paths : List Str
  ended : Bool

def step (session : Session) (input : Input) : Session :=
  if session.ended then session
  else
    match parseLine input.line input.stray with
    | .path args => { session with paths := args }
    | .exit => { session with ended := true }
    | .fault => { session with ended := true }
    | .test first op number second =>
      -- a null name is read as soon as there is an entry of the path to try
      { session with
        ended := session.paths ≠ [] ∧ (first = [] ∨ Compares op number input.ret ∧ second = []) }
    | _ => session

def start : Session := ⟨[[47, 98, 105, 110]], false⟩

def stores (session : Session) (input : Input) : List Store :=
  if session.ended then [] else lineStores session.paths input

def Inside (session : Session) (input : Input) : Prop :=
  ∀ store ∈ stores session input, store.Inside

def tried (access : Str → Bool) (cmd : Str) : List Str → List Str
  | [] => []
  | path :: rest => path :: if access (joined path cmd) then [] else tried access cmd rest

def NameFits (access : Str → Bool) (paths : List Str) : Option Str → Prop
  | none => ∀ path ∈ paths.head?, (joined path []).length < 300
  | some cmd => ∀ path ∈ tried access cmd paths, (joined path cmd).length < 300

/-- The bounds a line has to keep: 999 bytes of command before a redirection, 127
tokens, 49 entries of the path with 199 bytes each, 99 bytes for a word of an
`if`, and 299 for a command path. -/
structure LineFits (paths : List Str) (input : Input) : Prop where
  command : redirection ∈ input.line → ∀ command rest,
    strtok [redirection] input.line = some (command, rest) → command.length < 1000
  tokens : ∀ command rdout, redirect input.line = some (command, rdout) →
    (tokens command).length ≤ 127
  path : ∀ args, parseLine input.line input.stray = .path args →
    args.length ≤ 49 ∧ ∀ arg ∈ args, arg.length < 200
  name : ∀ toks rdout, parseLine input.line input.stray = .command toks rdout →
    NameFits input.access paths toks.head?
  words : ∀ first op number second,
    parseLine input.line input.stray = .test first op number second →
      (∀ tok ∈ first ++ second, tok.length < 100) ∧ NameFits input.access paths first.head? ∧
        ((first ≠ [] ∨ paths = []) → Compares op number input.ret →
          NameFits input.later paths second.head?)

def Fits (session : Session) (input : Input) : Prop :=
  session.ended = false → LineFits session.paths input

section Copies

theorem copied_inside (area : Area) (start : Nat) (text : Str) :
    (∀ store ∈ copied area start text, store.Inside) ↔ start + text.length < area.size := by
  simp only [copied, mem_map, mem_range, forall_exists_index, and_imp,
    forall_apply_eq_imp_iff₂, Store.Inside]
  constructor
  · intro all
    exact all text.length (Nat.lt_succ_self _)
  · intro fits i small
    omega

theorem pathStores_inside (j : Nat) (args : List Str) :
    (∀ store ∈ pathStores j args, store.Inside) ↔
      j + args.length ≤ 49 ∧ ∀ arg ∈ args, arg.length < 200 := by
  induction args generalizing j with
  | nil =>
    simp only [pathStores, mem_singleton, forall_eq, Store.Inside, Area.size,
      length_nil, not_mem_nil, false_imp_iff, implies_true, and_true]
    omega
  | cons arg rest ih =>
    simp only [pathStores, mem_append, or_imp, forall_and, copied_inside, ih, mem_cons,
      forall_eq, length_cons, Area.size]
    constructor
    · rintro ⟨here, count, later⟩
      rw [if_pos (by omega)] at here
      exact ⟨by omega, by omega, later⟩
    · rintro ⟨count, here, later⟩
      rw [if_pos (by omega)]
      exact ⟨by omega, by omega, later⟩

theorem wordStores_inside {slot : Nat → Area} (size : ∀ i, i < 128 → (slot i).size = 100)
    (i : Nat) (toks : List Str) (room : i + toks.length ≤ 128) :
    (∀ store ∈ wordStores slot i toks, store.Inside) ↔ ∀ tok ∈ toks, tok.length < 100 := by
  induction toks generalizing i with
  | nil => simp [wordStores]
  | cons tok rest ih =>
    rw [length_cons] at room
    simp only [wordStores, mem_append, or_imp, forall_and, copied_inside,
      ih (i + 1) (by omega), mem_cons, forall_eq, size i (by omega), Nat.zero_add]

theorem joined_length (path cmd : Str) :
    (joined path cmd).length = (joined path []).length + cmd.length := by
  simp [joined]

theorem entry_inside (path : Str) :
    (∀ store ∈ copied .cbin 0 path ++
        (if path.getLast? = some 47 then [] else copied .cbin path.length [47]), store.Inside) ↔
      (joined path []).length < 300 := by
  simp only [mem_append, or_imp, forall_and, copied_inside, Area.size]
  by_cases slash : path.getLast? = some 47
  · simp [joined, slash]
  · simp only [joined, slash, if_false, copied_inside, Area.size, length_append,
      length_cons, length_nil]
    omega

theorem findCbinStores_inside (access : Str → Bool) (cmd : Option Str) (paths : List Str) :
    (∀ store ∈ findCbinStores access cmd paths, store.Inside) ↔ NameFits access paths cmd := by
  cases cmd with
  | none =>
    cases paths with
    | nil => simp [findCbinStores, NameFits]
    | cons path rest =>
      simp only [findCbinStores, append_nil, entry_inside, NameFits, head?_cons,
        Option.mem_some_iff, forall_eq']
  | some cmd =>
    induction paths with
    | nil => simp [findCbinStores, NameFits, tried]
    | cons path rest ih =>
      have zero : (⟨.cbin, 0⟩ : Store).Inside := by simp [Store.Inside, Area.size]
      have full := joined_length path cmd
      rw [findCbinStores, forall_mem_append, entry_inside, forall_mem_append, copied_inside]
      simp only [NameFits, tried, forall_mem_cons] at ih ⊢
      by_cases found : access (joined path cmd) = true
      · simp only [found, if_true, not_mem_nil, false_imp_iff, implies_true, and_true, Area.size]
        omega
      · simp only [found, Bool.false_eq_true, if_false, forall_mem_cons, zero, ih, true_and,
          Area.size]
        constructor
        · rintro ⟨_, here, later⟩
          exact ⟨by omega, later⟩
        · rintro ⟨here, later⟩
          exact ⟨by omega, by omega, later⟩

end Copies

section Lines
variable {paths : List Str} {input : Input}

theorem redirectStores_inside (line : Str) :
    (∀ store ∈ redirectStores line, store.Inside) ↔
      (redirection ∈ line → ∀ command rest, strtok [redirection] line = some (command, rest) →
        command.length < 1000) := by
  have zero : (⟨.rdout, 0⟩ : Store).Inside := by simp [Store.Inside, Area.size]
  rw [redirectStores, forall_mem_cons]
  simp only [zero, true_and]
  by_cases sign : redirection ∈ line
  · simp only [sign, if_true, forall_const]
    cases cut : strtok [redirection] line with
    | none => simp
    | some parts =>
      obtain ⟨command, rest⟩ := parts
      simp [copied_inside, Area.size]
  · simp [sign]

def Uses (toks : List Str) : Line → Prop
  | .path args => toks = pathCmd :: args
  | .command used _ => toks = used ∧ used ≠ []
  | .test first _ _ second =>
    ∃ args, toks = ifCmd :: args ∧ first.Sublist args ∧ second.Sublist args
  | _ => True

theorem parseIf_uses (args : List Str) (stray : Option Str) :
    Uses (ifCmd :: args) (parseIf (ifCmd :: args) stray) := by
  unfold parseIf
  split
  · trivial
  · split_ifs
    · trivial
    · split
      · trivial
      · rename_i tnpos _
        split
        · trivial
        · split_ifs
          · trivial
          · have second : (args.drop tnpos).dropLast.Sublist args :=
              (dropLast_sublist _).trans (drop_sublist _ _)
            exact ⟨args, rfl, take_sublist _ _, second⟩

theorem parseLine_uses {command rdout : Str} (cut : redirect input.line = some (command, rdout)) :
    Uses (tokens command) (parseLine input.line input.stray) := by
  rw [← ltoks_eq]
  simp only [parseLine, cut]
  cases toks : ltoks command with
  | nil => trivial
  | cons cmd args =>
    simp only
    split_ifs with leaves alone changes sets tests
    · trivial
    · trivial
    · split <;> trivial
    · rw [sets]
      rfl
    · rw [tests]
      exact parseIf_uses args input.stray
    · exact ⟨rfl, cons_ne_nil _ _⟩

theorem test_room {first second : List Str} {op number command rdout : Str}
    (cut : redirect input.line = some (command, rdout))
    (parsed : parseLine input.line input.stray = .test first op number second)
    (count : (tokens command).length ≤ 127) : first.length < 127 ∧ second.length < 127 := by
  have uses := parseLine_uses cut
  rw [parsed] at uses
  obtain ⟨args, whole, firstPart, secondPart⟩ := uses
  rw [whole, length_cons] at count
  exact ⟨by have := firstPart.length_le; omega, by have := secondPart.length_le; omega⟩

theorem ifStores_inside {first second : List Str} {op number : Str} (firstRoom : first.length < 127)
    (secondRoom : second.length < 127) :
    (∀ store ∈ ifStores paths input first op number second, store.Inside) ↔
      (∀ tok ∈ first ++ second, tok.length < 100) ∧ NameFits input.access paths first.head? ∧
        ((first ≠ [] ∨ paths = []) → Compares op number input.ret →
          NameFits input.later paths second.head?) := by
  have ftoks : (⟨.ftoks, first.length⟩ : Store).Inside := by
    simp only [Store.Inside, Area.size]
    omega
  have stoks : (⟨.stoks, second.length⟩ : Store).Inside := by
    simp only [Store.Inside, Area.size]
    omega
  have cbin : (⟨.cbin, 0⟩ : Store).Inside := by simp [Store.Inside, Area.size]
  have firstCopies := @wordStores_inside .ftok (fun i small => if_pos small) 0 first (by omega)
  have secondCopies := @wordStores_inside .stok (fun i small => if_pos small) 0
    (second ++ [fiWord]) (by rw [length_append, length_singleton]; omega)
  have fi : fiWord.length < 100 := by decide
  simp only [ifStores, forall_mem_append, forall_mem_cons, firstCopies, secondCopies,
    findCbinStores_inside, ftoks, stoks, cbin, true_and, fi, not_mem_nil, false_imp_iff,
    implies_true, and_true]
  by_cases runs : (first ≠ [] ∨ paths = []) ∧ Compares op number input.ret
  · rw [if_pos runs, forall_mem_cons, findCbinStores_inside]
    constructor
    · rintro ⟨copies, more, name, _, later⟩
      exact ⟨⟨copies, more⟩, name, fun _ _ => later⟩
    · rintro ⟨⟨copies, more⟩, name, later⟩
      exact ⟨copies, more, name, cbin, later runs.1 runs.2⟩
  · rw [if_neg runs]
    constructor
    · rintro ⟨copies, more, name, _⟩
      exact ⟨⟨copies, more⟩, name, fun reached compares => absurd ⟨reached, compares⟩ runs⟩
    · rintro ⟨⟨copies, more⟩, name, _⟩
      exact ⟨copies, more, name, by simp⟩

theorem toksStores_inside (count : Nat) :
    (∀ store ∈ (range (count + 1)).map (fun i => (⟨.toks, i⟩ : Store)), store.Inside) ↔
      count ≤ 127 := by
  simp only [mem_map, mem_range, forall_exists_index, and_imp, forall_apply_eq_imp_iff₂,
    Store.Inside, Area.size]
  constructor
  · intro all
    have := all count (Nat.lt_succ_self _)
    omega
  · intro fits i small
    omega

theorem lineStores_inside :
    (∀ store ∈ lineStores paths input, store.Inside) ↔ LineFits paths input := by
  rw [lineStores, forall_mem_append, redirectStores_inside]
  cases cut : redirect input.line with
  | none =>
    have refused : parseLine input.line input.stray = .refused := by rw [parseLine, cut]
    constructor
    · rintro ⟨command, _⟩
      exact {
        command
        tokens := fun _ _ some => by rw [cut] at some; cases some
        path := fun _ other => by rw [refused] at other; cases other
        name := fun _ _ other => by rw [refused] at other; cases other
        words := fun _ _ _ _ other => by rw [refused] at other; cases other }
    · intro fits
      exact ⟨fits.command, by simp⟩
  | some parts =>
    obtain ⟨command, rdout⟩ := parts
    have cbin : (⟨.cbin, 0⟩ : Store).Inside := by simp [Store.Inside, Area.size]
    simp only
    rw [forall_mem_append, toksStores_inside, ltoks_eq]
    constructor
    · rintro ⟨copy, count, rest⟩
      refine ⟨copy, fun command' rdout' same => ?_, fun args parsed => ?_,
        fun toks out parsed => ?_, fun first op number second parsed => ?_⟩
      · rw [cut] at same
        cases same
        exact count
      · rw [parsed] at rest
        simpa using (pathStores_inside 0 args).mp rest
      · rw [parsed] at rest
        exact (findCbinStores_inside _ _ _).mp (forall_mem_cons.mp rest).2
      · rw [parsed] at rest
        have room := test_room cut parsed count
        exact (ifStores_inside room.1 room.2).mp rest
    · intro fits
      have count := fits.tokens command rdout cut
      refine ⟨fits.command, count, ?_⟩
      cases parsed : parseLine input.line input.stray with
      | path args => exact (pathStores_inside 0 args).mpr (by simpa using fits.path args parsed)
      | command toks out =>
        have name := fits.name toks out parsed
        exact forall_mem_cons.mpr ⟨cbin, (findCbinStores_inside _ _ _).mpr name⟩
      | test first op number second =>
        have room := test_room cut parsed count
        exact (ifStores_inside room.1 room.2).mpr (fits.words first op number second parsed)
      | blank | refused | exit | cd | fault => simp

end Lines

theorem inside_iff (session : Session) (input : Input) :
    Inside session input ↔ Fits session input := by
  unfold Inside Fits stores
  cases session.ended with
  | true => simp
  | false => simpa using lineStores_inside

/-- The shell stays inside its arrays through a script exactly if every line that
it handles keeps the bounds. -/
theorem scripts_stay_inside_iff (inputs : List Input) :
    Allowed step Inside start inputs ↔ Allowed step Fits start inputs :=
  ⟨allowed_mono fun session input => (inside_iff session input).mp,
    allowed_mono fun session input => (inside_iff session input).mpr⟩

/-- As the first line, with no file executable, the line makes this store, which
is outside its array. -/
def Leaves (line : Str) (store : Store) : Prop :=
  store ∈ stores start ⟨line, none, fun _ => false, fun _ => false, 0⟩ ∧ ¬ store.Inside

instance (line : Str) (store : Store) : Decidable (Leaves line store) :=
  inferInstanceAs (Decidable (_ ∧ _))

def spaced (toks : List Str) : Str := [32].intercalate toks

def letters (count : Nat) : Str := replicate count 97

/-- Each of the arrays is left by one line: 128 tokens, a path of 50 entries, an
entry of 200 bytes, a command of 295 bytes, a command of 1000 bytes before a
redirection, and a word of 100 bytes in an `if`. -/
theorem one_line_leaves_each_array :
    Leaves (spaced (replicate 128 (letters 1))) ⟨.toks, 128⟩ ∧
      Leaves (spaced (pathCmd :: replicate 50 (letters 1))) ⟨.paths, 50⟩ ∧
      Leaves (spaced [pathCmd, letters 200]) ⟨.path 0, 200⟩ ∧
      Leaves (letters 295) ⟨.cbin, 300⟩ ∧
      Leaves (letters 1000 ++ redirection :: letters 1) ⟨.lineCopy, 1000⟩ ∧
      Leaves (spaced [ifCmd, letters 100, equalWord, [48], thenWord, letters 1, fiWord])
        ⟨.ftok 0, 100⟩ := by
  decide +kernel

section ShortLines

theorem strtok_length {delim s tok rest : Str} (found : strtok delim s = some (tok, rest)) :
    tok.length ≤ s.length := by
  obtain ⟨_, _, skipped, _, ⟨rfl, _⟩ | ⟨d, _, rfl⟩⟩ := strtok_split found <;>
  · simp only [length_append]
    omega

/-- Tokens, with a delimiter between any two, have room in the text. -/
theorem words_room (delim s : Str) :
    2 * (words delim s).length ≤ s.length + 1 ∧ ∀ tok ∈ words delim s, tok.length ≤ s.length := by
  induction size : s.length using Nat.strong_induction_on generalizing s with
  | _ size ih =>
    cases found : strtok delim s with
    | none => simp [words_eq_nil_iff.mpr found]
    | some cut =>
      obtain ⟨tok, rest⟩ := cut
      have shorter := strtok_shorter found
      have first := strtok_length found
      obtain ⟨count, later⟩ := ih rest.length (by omega) rest rfl
      rw [words_strtok found, length_cons, forall_mem_cons]
      refine ⟨?_, by omega, fun other member => (later other member).trans (by omega)⟩
      obtain ⟨some, _, skipped, _, ⟨rfl, rfl⟩ | ⟨d, _, rfl⟩⟩ := strtok_split found
      · have := length_pos_iff.mpr some
        rw [words_none (by simp), length_nil]
        simp only [length_append] at size
        omega
      · have := length_pos_iff.mpr some
        simp only [length_append, length_cons] at size
        omega

theorem redirect_length {line command rdout : Str} (cut : redirect line = some (command, rdout)) :
    command.length ≤ line.length := by
  unfold redirect at cut
  split_ifs at cut
  · split at cut
    · cases cut
    · rename_i found
      split at cut
      · cases cut
      · split_ifs at cut
        cases cut
        exact strtok_length found
  · cases cut
    exact Nat.le_refl _

def ShortPaths (session : Session) : Prop := ∀ path ∈ session.paths, path.length < 100

theorem joined_short {path cmd : Str} (entry : path.length < 100) (name : cmd.length < 100) :
    (joined path cmd).length < 300 := by
  unfold joined
  split_ifs <;> simp only [length_append, length_cons, length_nil] <;> omega

theorem tried_subset (access : Str → Bool) (cmd : Str) (paths : List Str) :
    tried access cmd paths ⊆ paths := by
  induction paths with
  | nil => exact List.Subset.refl []
  | cons path rest ih =>
    rw [tried]
    split_ifs
    · simp
    · exact cons_subset_cons path ih

theorem name_short {paths : List Str} {cmd : Option Str} (access : Str → Bool)
    (entries : ∀ path ∈ paths, path.length < 100) (name : ∀ tok ∈ cmd, tok.length < 100) :
    NameFits access paths cmd := by
  cases cmd with
  | none =>
    intro path first
    exact joined_short (entries path (mem_of_mem_head? first)) (by decide)
  | some cmd =>
    intro path member
    exact joined_short (entries path (tried_subset access cmd paths member)) (name cmd rfl)

theorem uses_small {input : Input} (short : input.line.length < 100) :
    ∃ toks, Uses toks (parseLine input.line input.stray) ∧ toks.length ≤ 50 ∧
      ∀ tok ∈ toks, tok.length < 100 := by
  cases cut : redirect input.line with
  | none =>
    have refused : parseLine input.line input.stray = .refused := by rw [parseLine, cut]
    exact ⟨[], by rw [refused]; trivial, by simp⟩
  | some parts =>
    have part := redirect_length cut
    obtain ⟨count, small⟩ := words_room blanks parts.1
    exact ⟨words blanks parts.1, parseLine_uses cut, by omega,
      fun tok member => (small tok member).trans_lt (by omega)⟩

theorem short_fits {session : Session} {input : Input} (entries : ShortPaths session)
    (short : input.line.length < 100) : Fits session input := by
  intro _
  obtain ⟨toks, uses, count, small⟩ := uses_small short
  refine ⟨fun _ command rest found => ?_, fun command rdout cut => ?_, fun args parsed => ?_,
    fun used out parsed => ?_, fun first op number second parsed => ?_⟩
  · have := strtok_length found
    omega
  · have part := redirect_length cut
    have room := (words_room blanks command).1
    change (words blanks command).length ≤ 127
    omega
  · rw [parsed] at uses
    cases uses
    rw [length_cons] at count
    refine ⟨by omega, fun arg member => ?_⟩
    have := small arg (mem_cons_of_mem _ member)
    omega
  · rw [parsed] at uses
    obtain ⟨rfl, _⟩ := uses
    exact name_short _ entries fun tok head => small tok (mem_of_mem_head? head)
  · rw [parsed] at uses
    obtain ⟨args, rfl, firstPart, secondPart⟩ := uses
    have firstSmall : ∀ tok ∈ first, tok.length < 100 := fun tok member =>
      small tok (mem_cons_of_mem _ (firstPart.subset member))
    have secondSmall : ∀ tok ∈ second, tok.length < 100 := fun tok member =>
      small tok (mem_cons_of_mem _ (secondPart.subset member))
    exact ⟨forall_mem_append.mpr ⟨firstSmall, secondSmall⟩,
      name_short _ entries fun tok head => firstSmall tok (mem_of_mem_head? head),
      fun _ _ => name_short _ entries fun tok head => secondSmall tok (mem_of_mem_head? head)⟩

theorem short_step {session : Session} {input : Input} (entries : ShortPaths session)
    (short : input.line.length < 100) : ShortPaths (step session input) := by
  obtain ⟨toks, uses, _, small⟩ := uses_small short
  unfold step
  split_ifs
  · exact entries
  · cases parsed : parseLine input.line input.stray with
    | path args =>
      rw [parsed] at uses
      cases uses
      exact fun path member => small path (mem_cons_of_mem _ member)
    | _ => exact entries

/-- A script of lines shorter than 100 bytes never leaves the arrays. -/
theorem short_lines_stay_inside (inputs : List Input)
    (short : ∀ input ∈ inputs, input.line.length < 100) : Allowed step Inside start inputs := by
  have initial : ShortPaths start := by simp [ShortPaths, start]
  generalize start = session at initial ⊢
  induction inputs generalizing session with
  | nil => trivial
  | cons input rest ih =>
    have here := short input mem_cons_self
    exact ⟨(inside_iff session input).mpr (short_fits initial here),
      ih (fun other member => short other (mem_cons_of_mem input member)) _
        (short_step initial here)⟩

theorem longest_short_lines_stay_inside : Allowed step Inside start
    (replicate 3 ⟨letters 99, none, fun _ => false, fun _ => false, 0⟩) :=
  short_lines_stay_inside _ fun input member => by
    rw [eq_of_mem_replicate member]
    decide

end ShortLines

end OsProjects.WishArrays
