import Mathlib.Data.List.Basic

/-!
What the shell `wish.c` makes of a line: the redirection, the tokens, the built-in
commands and the parts of an `if`. Strings are the bytes before the `NUL`. The
arrays that the source copies tokens into are lists here. A token is looked up at
a position that may lie before the array; what is found there is an argument.
-/

namespace OsProjects.WishLines

abbrev Str := List UInt8

def blanks : Str := [32, 10, 9, 13, 12, 11]

def redirection : UInt8 := 62

def exitCmd : Str := [101, 120, 105, 116]

def cdCmd : Str := [99, 100]

def pathCmd : Str := [112, 97, 116, 104]

def ifCmd : Str := [105, 102]

def thenWord : Str := [116, 104, 101, 110]

def fiWord : Str := [102, 105]

def equalWord : Str := [61, 61]

def differsWord : Str := [33, 61]

def strtok (delim s : Str) : Option (Str × Str) :=
  match s.dropWhile fun c => delim.contains c with
  | [] => none
  | c :: rest =>
    some ((c :: rest).takeWhile fun c => !delim.contains c,
      ((c :: rest).dropWhile fun c => !delim.contains c).tail)

def getTokens : Nat → Str → List Str
  | 0, _ => []
  | left + 1, line =>
    match strtok blanks line with
    | none => []
    | some (tok, rest) => tok :: getTokens left rest

def ltoks (line : Str) : List Str := getTokens (line.length + 1) line

/-- The part of the line that is the command, and the file of the redirection
(empty if there is none); `none` if the line is refused. -/
def redirect (line : Str) : Option (Str × Str) :=
  if redirection ∈ line then
    match strtok [redirection] line with
    | none => none
    | some (command, rest) =>
      match strtok blanks rest with
      | none => none
      | some (rdout, rest) =>
        if (strtok blanks rest).isSome ∨ redirection ∈ rdout ∨ (strtok blanks command).isNone
        then none
        else some (command, rdout)
  else some (line, [])

/-- `findPos`, with `none` for -1. -/
def findPos (toks : List Str) (tok : Str) : Option Nat := toks.findIdx? (· = tok)

inductive Line where
  | blank
  | refused
  | exit
  | cd (dir : Str)
  | path (paths : List Str)
  | command (toks : List Str) (rdout : Str)
  /-- `if first op number then second fi` -/
  | test (first : List Str) (op number : Str) (second : List Str)
  /-- a read outside the tokens faults -/
  | fault
  deriving DecidableEq

/-- The branch for `if`. The first `fi` has to be the last token; the operator
stands two before the first `then`, which for `if then` is before the array. -/
def parseIf (toks : List Str) (stray : Option Str) : Line :=
  match findPos toks fiWord with
  | none => .refused
  | some fi =>
    if (toks[fi + 1]?).isSome then .refused
    else
      match findPos toks thenWord with
      | none => .refused
      | some tnpos =>
        match if tnpos < 2 then stray else toks[tnpos - 2]? with
        | none => .fault
        | some op =>
          if op ≠ equalWord ∧ op ≠ differsWord then .refused
          else
            .test ((toks.drop 1).take (tnpos - 3)) op (toks[tnpos - 1]?.getD [])
              ((toks.drop (tnpos + 1)).dropLast)

def parseLine (line : Str) (stray : Option Str) : Line :=
  match redirect line with
  | none => .refused
  | some (command, rdout) =>
    let toks := ltoks command
    match toks with
    | [] => .blank
    | cmd :: args =>
      if cmd = exitCmd then if args = [] then .exit else .refused
      else if cmd = cdCmd then
        match args with
        | [dir] => .cd dir
        | _ => .refused
      else if cmd = pathCmd then .path args
      else if cmd = ifCmd then parseIf toks stray
      else .command toks rdout

def strtol (s : Str) : Int :=
  let s := s.dropWhile fun c => blanks.contains c
  let digits (s : Str) : Int :=
    (s.takeWhile fun c => 48 ≤ c && c ≤ 57).foldl (fun n c => 10 * n + (c.toNat - 48 : Int)) 0
  -- a number out of the range of `long` gives the end it passed
  match s with
  | 45 :: rest => max (-digits rest) (-9223372036854775808)
  | 43 :: rest => min (digits rest) 9223372036854775807
  | s => min (digits s) 9223372036854775807

/-- The `long` cut to an `int`: its low 32 bits, as a signed number. -/
def atoi (s : Str) : Int := (strtol s).bmod 4294967296

def findCbin (access : Str → Bool) (cmd : Str) : List Str → Str
  | [] => []
  | path :: rest =>
    let cbin := (if path.getLast? = some 47 then path else path ++ [47]) ++ cmd
    if access cbin then cbin else findCbin access cmd rest

end OsProjects.WishLines
