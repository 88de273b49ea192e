import OsProjects.WishProcesses
import Mathlib.Data.List.TakeWhile

/-!
The redirections of `wish.c`. A token is a longest run of bytes that are not
blank, which is what `strtok` and `getTokens` cut out. A line with `>` is to be
a command, the sign and one file. `strtok(line, ">")` passes over signs at the
start of the line, so main does not see those.
-/

namespace OsProjects.WishRedirects

open WishLines WishProcesses List

def words (delim s : Str) : List Str := (s.splitOnP delim.contains).filter (· ≠ [])

abbrev tokens (s : Str) : List Str := words blanks s

section Strtok
variable {delim s : Str}

theorem words_none (only : ∀ c ∈ s, c ∈ delim) : words delim s = [] := by
  induction s with
  | nil => simp [words]
  | cons c rest ih =>
    have here := only c mem_cons_self
    have later := ih fun d member => only d (mem_cons_of_mem c member)
    simp only [words, splitOnP_cons_eq_if_modifyHead, contains_iff_mem, here, if_true]
    simpa [words] using later

theorem words_skip (skipped : Str) (only : ∀ c ∈ skipped, c ∈ delim) :
    words delim (skipped ++ s) = words delim s := by
  induction skipped with
  | nil => rfl
  | cons c rest ih =>
    have here := only c mem_cons_self
    have later := ih fun d member => only d (mem_cons_of_mem c member)
    simp only [words, cons_append, splitOnP_cons_eq_if_modifyHead, contains_iff_mem, here, if_true]
    simpa [words] using later

theorem words_last {tok : Str} (some : tok ≠ []) (plain : ∀ c ∈ tok, c ∉ delim) :
    words delim tok = [tok] := by
  rw [words, splitOnP_eq_singleton (by simpa using plain)]
  simp [some]

theorem words_first {tok : Str} {d : UInt8} (rest : Str) (some : tok ≠ [])
    (plain : ∀ c ∈ tok, c ∉ delim) (sep : d ∈ delim) :
    words delim (tok ++ d :: rest) = tok :: words delim rest := by
  rw [words, splitOnP_append_cons_of_forall_mem (by simpa using plain) d (by simpa using sep)]
  simp [some, words]

theorem strtok_none_iff : strtok delim s = none ↔ ∀ c ∈ s, c ∈ delim := by
  have all : s.dropWhile (fun c => delim.contains c) = [] ↔ ∀ c ∈ s, c ∈ delim := by
    simp only [dropWhile_eq_nil_iff, contains_iff_mem]
  rw [← all]
  unfold strtok
  split
  · rename_i empty
    exact iff_of_true rfl empty
  · rename_i c rest left
    exact iff_of_false (by simp) (by rw [left]; simp)

theorem dropWhile_head {p : UInt8 → Bool} {c : UInt8} {rest : Str}
    (kept : s.dropWhile p = c :: rest) : p c = false := by
  have nonempty : s.dropWhile p ≠ [] := by rw [kept]; simp
  have first := head_dropWhile_not p nonempty
  simpa only [kept, head_cons] using first

theorem strtok_split {tok rest : Str} (found : strtok delim s = some (tok, rest)) :
    tok ≠ [] ∧ (∀ c ∈ tok, c ∉ delim) ∧ ∃ skipped, (∀ c ∈ skipped, c ∈ delim) ∧
        ((s = skipped ++ tok ∧ rest = []) ∨ ∃ d ∈ delim, s = skipped ++ tok ++ d :: rest) := by
  have whole : s.takeWhile (fun c => delim.contains c) ++ s.dropWhile (fun c => delim.contains c) =
      s := takeWhile_append_dropWhile
  have skipped : ∀ c ∈ s.takeWhile (fun c => delim.contains c), c ∈ delim := by
    intro c member
    simpa using mem_takeWhile_imp member
  unfold strtok at found
  split at found
  · cases found
  · rename_i c left kept
    rw [Option.some.injEq, Prod.mk.injEq] at found
    obtain ⟨rfl, rfl⟩ := found
    have head : c ∉ delim := by simpa using dropWhile_head kept
    have cut : (c :: left).takeWhile (fun c => !delim.contains c) ++
        (c :: left).dropWhile (fun c => !delim.contains c) = c :: left :=
      takeWhile_append_dropWhile
    refine ⟨by simp [head], fun d member => ?_, _, skipped, ?_⟩
    · simpa using mem_takeWhile_imp member
    · cases behind : (c :: left).dropWhile fun c => !delim.contains c with
      | nil =>
        rw [behind, append_nil] at cut
        exact .inl ⟨by rw [cut, ← kept, whole], rfl⟩
      | cons d rest =>
        have sep : d ∈ delim := by simpa using dropWhile_head behind
        rw [behind] at cut
        exact .inr ⟨d, sep, by rw [append_assoc, tail_cons, cut, ← kept, whole]⟩

theorem words_strtok {tok rest : Str} (found : strtok delim s = some (tok, rest)) :
    words delim s = tok :: words delim rest := by
  obtain ⟨some, plain, skipped, only, ⟨rfl, rfl⟩ | ⟨d, sep, rfl⟩⟩ := strtok_split found
  · rw [words_skip skipped only, words_last some plain, words_none (by simp)]
  · rw [append_assoc, words_skip skipped only, words_first rest some plain sep]

theorem words_eq_nil_iff : words delim s = [] ↔ strtok delim s = none := by
  cases found : strtok delim s with
  | none => exact iff_of_true (words_none (strtok_none_iff.mp found)) rfl
  | some cut => exact iff_of_false (by rw [words_strtok found]; simp) (by simp)

theorem strtok_shorter {tok rest : Str} (found : strtok delim s = some (tok, rest)) :
    rest.length < s.length := by
  obtain ⟨some, _, skipped, _, ⟨rfl, rfl⟩ | ⟨d, _, rfl⟩⟩ := strtok_split found
  · have := length_pos_iff.mpr some
    simp only [length_append, length_nil]
    omega
  · simp only [length_append, length_cons]
    omega

theorem getTokens_eq (left : Nat) (enough : s.length < left) : getTokens left s = tokens s := by
  induction left generalizing s with
  | zero => omega
  | succ left ih =>
    rw [getTokens]
    cases found : strtok blanks s with
    | none => exact (words_eq_nil_iff.mpr found).symm
    | some cut =>
      have shorter := strtok_shorter found
      simp only
      rw [ih (by omega)]
      exact (words_strtok found).symm

theorem ltoks_eq (line : Str) : ltoks line = tokens line := getTokens_eq _ (Nat.lt_succ_self _)

end Strtok

structure Redirects (line before after out : Str) : Prop where
  split : line = before ++ redirection :: after
  first : redirection ∉ before
  only : redirection ∉ after
  command : tokens before ≠ []
  file : tokens after = [out]

theorem contains_redirection :
    (fun c => [redirection].contains c) = fun c => decide (c = redirection) := by
  funext c
  simp

/-- `strtok(line, ">")` passes over the signs at the start of the line. -/
theorem strtok_redirection {line before after : Str} (nonempty : before ≠ [])
    (plain : redirection ∉ before)
    (split : line.dropWhile (· = redirection) = before ++ redirection :: after) :
    strtok [redirection] line = some (before, after) := by
  obtain ⟨c, rest, rfl⟩ := exists_cons_of_ne_nil nonempty
  have others : ∀ d ∈ c :: rest, (!contains [redirection] d) = true := by
    intro d member
    simpa using fun same : d = redirection => plain (same ▸ member)
  unfold strtok
  simp only [contains_redirection, split, cons_append]
  rw [← cons_append, takeWhile_append_of_pos others, dropWhile_append_of_pos others]
  simp

theorem strtok_single {s out : Str} (file : tokens s = [out]) :
    ∃ rest, strtok blanks s = some (out, rest) ∧ strtok blanks rest = none := by
  cases found : strtok blanks s with
  | none => cases (words_eq_nil_iff.mpr found).symm.trans file
  | some cut =>
    obtain ⟨tok, last⟩ := cons.inj ((words_strtok found).symm.trans file)
    exact ⟨cut.2, by rw [← tok], words_eq_nil_iff.mp last⟩

/-- A sign in a part with one token is in the token, for it is no blank. -/
theorem redirection_mem_token {s out : Str} (file : tokens s = [out]) :
    redirection ∈ s ↔ redirection ∈ out := by
  have visible : redirection ∉ blanks := by decide
  obtain ⟨rest, found, nothing⟩ := strtok_single file
  have blank : redirection ∉ rest := fun member => visible (strtok_none_iff.mp nothing _ member)
  obtain ⟨_, _, skipped, only, ⟨rfl, _⟩ | ⟨d, sep, rfl⟩⟩ := strtok_split found
  · have skip : redirection ∉ skipped := fun member => visible (only _ member)
    simp [skip]
  · have skip : redirection ∉ skipped := fun member => visible (only _ member)
    have apart : redirection ≠ d := fun same => visible (same ▸ sep)
    simp [skip, blank, apart]

theorem dropWhile_signs {skipped before rest : Str} (only : ∀ c ∈ skipped, c ∈ [redirection])
    (nonempty : before ≠ []) (plain : ∀ c ∈ before, c ∉ [redirection]) :
    (skipped ++ before ++ rest).dropWhile (· = redirection) = before ++ rest := by
  obtain ⟨c, left, rfl⟩ := exists_cons_of_ne_nil nonempty
  have other : c ≠ redirection := by simpa using plain c mem_cons_self
  rw [append_assoc, dropWhile_append_of_pos (by simpa using only)]
  simp [other]

theorem redirect_eq_iff {line before out : Str} (sign : redirection ∈ line) :
    redirect line = some (before, out) ↔
      ∃ after, Redirects (line.dropWhile (· = redirection)) before after out := by
  constructor
  · intro accepted
    rw [redirect, if_pos sign] at accepted
    split at accepted
    · cases accepted
    · rename_i command rest cut
      split at accepted
      · cases accepted
      · rename_i rdout rest' file
        split_ifs at accepted with refused
        cases accepted
        obtain ⟨last, plainOut, command⟩ : strtok blanks rest' = none ∧ redirection ∉ out ∧
            strtok blanks before ≠ none := by
          simpa [not_or] using refused
        have single : tokens rest = [out] := by
          rw [tokens, words_strtok file, words_eq_nil_iff.mpr last]
        obtain ⟨nonempty, plain, skipped, only, ⟨rfl, rfl⟩ | ⟨d, sep, rfl⟩⟩ := strtok_split cut
        · cases file
        · obtain rfl : d = redirection := by simpa using sep
          exact ⟨rest, {
            split := dropWhile_signs only nonempty plain
            first := fun member => by simpa using plain _ member
            only := (redirection_mem_token single).not.mpr plainOut
            command := words_eq_nil_iff.not.mpr command
            file := single }⟩
  · rintro ⟨after, form⟩
    have nonempty : before ≠ [] := by
      rintro rfl
      exact form.command (words_none (by simp))
    obtain ⟨rest, found, nothing⟩ := strtok_single form.file
    have out : redirection ∉ out := (redirection_mem_token form.file).not.mp form.only
    have command : (strtok blanks before).isNone ≠ true := by
      rw [ne_eq, Option.isNone_iff_eq_none, ← words_eq_nil_iff]
      exact form.command
    rw [redirect, if_pos sign, strtok_redirection nonempty form.first form.split]
    simp only [found]
    rw [if_neg]
    simp [nothing, out, command]

theorem Redirects.unsigned {line before after out : Str} (form : Redirects line before after out) :
    line.head? ≠ some redirection ∧ line.dropWhile (· = redirection) = line := by
  cases before with
  | nil => exact absurd (words_none (by simp)) form.command
  | cons c rest =>
    have other : c ≠ redirection := fun same => form.first (same ▸ mem_cons_self)
    rw [form.split]
    exact ⟨by simp [other], by simp [other]⟩

/-- What is asked for a line with `>`: main goes on with the lines of the form,
each as a command with just its tokens and its file, and refuses any other, which
runs nothing. -/
structure Parsed (line : Str) : Prop where
  accepts : redirect line ≠ none ↔ ∃ before after out, Redirects line before after out
  exact : ∀ before after out, Redirects line before after out →
    redirect line = some (before, out) ∧ ltoks before = tokens before ∧
      ∀ cmd args stray, tokens before = cmd :: args → cmd ∉ [exitCmd, cdCmd, pathCmd, ifCmd] →
        parseLine line stray = .command (tokens before) out
  refused : (¬ ∃ before after out, Redirects line before after out) →
    (∀ stray, parseLine line stray = .refused) ∧
      ∀ shell choice, choice.line = some line → Shell.read shell choice = shell

theorem parsed_accepted {line before after out : Str} (sign : redirection ∈ line)
    (form : Redirects line before after out) :
    redirect line = some (before, out) ∧ ltoks before = tokens before ∧
      ∀ cmd args stray, tokens before = cmd :: args → cmd ∉ [exitCmd, cdCmd, pathCmd, ifCmd] →
        parseLine line stray = .command (tokens before) out := by
  have taken : redirect line = some (before, out) :=
    (redirect_eq_iff sign).mpr ⟨after, by rw [form.unsigned.2]; exact form⟩
  refine ⟨taken, ltoks_eq before, fun cmd args stray toks other => ?_⟩
  simp only [mem_cons, not_mem_nil, or_false, not_or] at other
  simp only [parseLine, taken, ltoks_eq, toks, other.1, other.2.1, other.2.2.1, other.2.2.2, if_false]

/-- Main parses a line with `>` as it should exactly if the line does not start
with signs before something of the form. -/
theorem redirections_parsed_iff (line : Str) :
    (redirection ∈ line → Parsed line) ↔ ¬ (line.head? = some redirection ∧
        ∃ before after out, Redirects (line.dropWhile (· = redirection)) before after out) := by
  constructor
  · rintro right ⟨signed, before, after, out, form⟩
    have sign : redirection ∈ line := mem_of_mem_head? signed
    have taken : redirect line = some (before, out) := (redirect_eq_iff sign).mpr ⟨after, form⟩
    obtain ⟨_, _, _, whole⟩ := (right sign).accepts.mp (by simp [taken])
    exact whole.unsigned.1 signed
  · intro unsigned sign
    have accepts : redirect line ≠ none ↔ ∃ before after out, Redirects line before after out := by
      constructor
      · intro some
        obtain ⟨⟨before, out⟩, taken⟩ := Option.ne_none_iff_exists'.mp some
        obtain ⟨after, form⟩ := (redirect_eq_iff sign).mp taken
        have same : line.dropWhile (· = redirection) = line := by
          cases line with
          | nil => rfl
          | cons c rest =>
            have other : c ≠ redirection := fun signed =>
              unsigned ⟨by simp [signed], before, after, out, form⟩
            simp [other]
        exact ⟨before, after, out, same ▸ form⟩
      · rintro ⟨before, after, out, form⟩
        simp [(parsed_accepted sign form).1]
    refine ⟨accepts, fun before after out form => parsed_accepted sign form, fun formless => ?_⟩
    have nothing : redirect line = none := not_not.mp (accepts.not.mpr formless)
    have refused : ∀ stray, parseLine line stray = .refused := by
      intro stray
      rw [parseLine, nothing]
    refine ⟨refused, fun shell choice given => ?_⟩
    simp only [Shell.read, given, refused]

/-- The line `>ls>out` has two signs, and main runs `ls`. -/
theorem leading_sign_is_accepted : let line : Str := [62, 108, 115, 62, 111, 117, 116]
    (∀ before after out, ¬ Redirects line before after out) ∧
      ∀ stray, parseLine line stray = .command [[108, 115]] [111, 117, 116] := by
  refine ⟨fun before after out form => form.unsigned.1 rfl, fun stray => ?_⟩
  rfl

end OsProjects.WishRedirects
