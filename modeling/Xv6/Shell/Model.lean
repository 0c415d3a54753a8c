import Mathlib.Data.List.Basic

/-!
# The parser of the shell

`parsecmd` of `sh.c` and the functions under it. The pointers into the command line are
offsets, and `*ps` is passed in and out. A tree is built of slices of the line, the pairs
`argv[i]`, `eargv[i]` and `file`, `efile`, until `nulterminate` stores a NUL at the end of
each. While `parseexec` reads arguments, the node that it fills is the innermost one of
`ret`, below the redirections that were met so far.

A loop or a recursive call is given a number of steps; `parsecmd` gives so many that it
never runs out. Allocations do not fail, and the stack of the process is taken to be large
enough for any nesting of the calls. A panic ends the process.
-/

namespace Xv6.Shell

abbrev maxArgs : ℕ := 10

abbrev oRdonly : ℕ := 0x000

abbrev oWronlyCreate : ℕ := 0x001 + 0x200

abbrev nul : Char := '\x00'

def whitespace : List Char := [' ', '\t', '\r', '\n', '\x0b']

def symbols : List Char := ['<', '|', '>', '&', ';', '(', ')']

/-- A parsed command, with words of some kind. -/
inductive Cmd (W : Type*) where
  | exec (argv : List W)
  | redir (cmd : Cmd W) (file : W) (mode fd : ℕ)
  | pipe (left right : Cmd W)
  | list (left right : Cmd W)
  | back (cmd : Cmd W)
  deriving DecidableEq

/-- A word of the line: the offset of its first character and the one after its last. -/
structure Slice where
  q : ℕ
  eq : ℕ
  deriving DecidableEq

/-- Why `parsecmd` does not return: the calls of `panic`, and the want of steps. -/
inductive Panic where
  /-- In `parsecmd`, `"syntax"` after the leftovers. -/
  | leftovers
  /-- `"missing file for redirection"`. -/
  | missingFile
  /-- `"parseblock"`. -/
  | parseblock
  /-- `"syntax - missing )"`. -/
  | missingParen
  /-- In `parseexec`, `"syntax"`. -/
  | notWord
  /-- `"too many args"`. -/
  | tooManyArgs
  | endless
  deriving DecidableEq

def charAt (s : List Char) (i : ℕ) : Char := s.getD i nul

def scanLoop (p : Char → Bool) (s : List Char) : ℕ → ℕ → ℕ
  | 0, i => i
  | n + 1, i => if i < s.length ∧ p (charAt s i) = true then scanLoop p s n (i + 1) else i

def scan (p : Char → Bool) (s : List Char) (i : ℕ) : ℕ := scanLoop p s (s.length - i) i

def isSpace (c : Char) : Bool := decide (c ∈ whitespace)

def isWord (c : Char) : Bool := decide (c ∉ whitespace) && decide (c ∉ symbols)

/-- What `gettoken` gives: its return value, `*q`, `*eq` and `*ps`. -/
structure Gotten where
  ret : Char
  q : ℕ
  eq : ℕ
  ps : ℕ

/-- The switch of `gettoken`: the return value and the end of the token. -/
def tokenAt (s : List Char) (i : ℕ) : Char × ℕ :=
  match charAt s i with
  | '\x00' => (nul, i)
  | '|' => ('|', i + 1)
  | '(' => ('(', i + 1)
  | ')' => (')', i + 1)
  | ';' => (';', i + 1)
  | '&' => ('&', i + 1)
  | '<' => ('<', i + 1)
  | '>' => if charAt s (i + 1) = '>' then ('+', i + 2) else ('>', i + 1)
  | _ => ('a', scan isWord s i)

def gettoken (s : List Char) (i : ℕ) : Gotten :=
  let q := scan isSpace s i
  let t := tokenAt s q
  { ret := t.1, q := q, eq := t.2, ps := scan isSpace s t.2 }

def peek (s : List Char) (i : ℕ) (toks : List Char) : Bool × ℕ :=
  let i := scan isSpace s i
  (decide (charAt s i ≠ nul) && decide (charAt s i ∈ toks), i)

/-- The argument that `parseexec` stores into its node, the innermost one of `ret`. -/
def Cmd.addArg {W : Type*} (w : W) : Cmd W → Cmd W
  | .exec argv => .exec (argv ++ [w])
  | .redir cmd file mode fd => .redir (cmd.addArg w) file mode fd
  | .pipe left right => .pipe left right
  | .list left right => .list left right
  | .back cmd => .back cmd

def redircmd (tok : Char) (cmd : Cmd Slice) (file : Slice) : Cmd Slice :=
  match tok with
  | '<' => .redir cmd file oRdonly 0
  | '>' => .redir cmd file oWronlyCreate 1
  | '+' => .redir cmd file oWronlyCreate 1
  | _ => cmd

def parseredirs (s : List Char) : ℕ → Cmd Slice → ℕ → Except Panic (Cmd Slice × ℕ)
  | 0, _, _ => .error .endless
  | n + 1, cmd, i =>
    let (found, i) := peek s i ['<', '>']
    if found then
      let tok := gettoken s i
      let word := gettoken s tok.ps
      if word.ret ≠ 'a' then
        .error .missingFile
      else
        parseredirs s n (redircmd tok.ret cmd ⟨word.q, word.eq⟩) word.ps
    else
      .ok (cmd, i)

def parseargs (s : List Char) : ℕ → Cmd Slice → ℕ → ℕ → Except Panic (Cmd Slice × ℕ)
  | 0, _, _, _ => .error .endless
  | n + 1, ret, argc, i =>
    let (found, i) := peek s i ['|', ')', '&', ';']
    if found then
      .ok (ret, i)
    else
      let tok := gettoken s i
      if tok.ret = nul then
        .ok (ret, tok.ps)
      else if tok.ret ≠ 'a' then
        .error .notWord
      else if maxArgs ≤ argc + 1 then
        .error .tooManyArgs
      else do
        let (ret, i) ← parseredirs s n (ret.addArg ⟨tok.q, tok.eq⟩) tok.ps
        parseargs s n ret (argc + 1) i

def parsebacks (s : List Char) : ℕ → Cmd Slice → ℕ → Except Panic (Cmd Slice × ℕ)
  | 0, _, _ => .error .endless
  | n + 1, cmd, i =>
    let (found, i) := peek s i ['&']
    if found then
      parsebacks s n (.back cmd) (gettoken s i).ps
    else
      .ok (cmd, i)

mutual

def parseline (s : List Char) : ℕ → ℕ → Except Panic (Cmd Slice × ℕ)
  | 0, _ => .error .endless
  | n + 1, i => do
      let (cmd, i) ← parsepipe s n i
      let (cmd, i) ← parsebacks s n cmd i
      let (found, i) := peek s i [';']
      if found then
        let (right, i) ← parseline s n (gettoken s i).ps
        .ok (.list cmd right, i)
      else
        .ok (cmd, i)

def parsepipe (s : List Char) : ℕ → ℕ → Except Panic (Cmd Slice × ℕ)
  | 0, _ => .error .endless
  | n + 1, i => do
      let (cmd, i) ← parseexec s n i
      let (found, i) := peek s i ['|']
      if found then
        let (right, i) ← parsepipe s n (gettoken s i).ps
        .ok (.pipe cmd right, i)
      else
        .ok (cmd, i)

def parseexec (s : List Char) : ℕ → ℕ → Except Panic (Cmd Slice × ℕ)
  | 0, _ => .error .endless
  | n + 1, i => do
      let (found, i) := peek s i ['(']
      if found then
        parseblock s n i
      else
        let (ret, i) ← parseredirs s n (.exec []) i
        parseargs s n ret 0 i

def parseblock (s : List Char) : ℕ → ℕ → Except Panic (Cmd Slice × ℕ)
  | 0, _ => .error .endless
  | n + 1, i => do
      let (found, i) := peek s i ['(']
      if found then
        let (cmd, i) ← parseline s n (gettoken s i).ps
        let (found, i) := peek s i [')']
        if found then
          parseredirs s n cmd (gettoken s i).ps
        else
          .error .missingParen
      else
        .error .parseblock

end

/-- `nulterminate`, on the memory that holds the line. -/
def nulterminate : Cmd Slice → List Char → List Char
  | .exec argv, buf => argv.foldl (fun buf w => buf.set w.eq nul) buf
  | .redir cmd file _ _, buf => (nulterminate cmd buf).set file.eq nul
  | .pipe left right, buf => nulterminate right (nulterminate left buf)
  | .list left right, buf => nulterminate right (nulterminate left buf)
  | .back cmd, buf => nulterminate cmd buf

/-- `parsecmd`: the tree and the memory that its words point into. -/
def parsecmd (s : List Char) : Except Panic (Cmd Slice × List Char) := do
  let (cmd, i) ← parseline s (4 * s.length + 5) 0
  let (_, i) := peek s i []
  if i ≠ s.length then
    .error .leftovers
  else
    .ok (cmd, nulterminate cmd (s ++ [nul]))

end Xv6.Shell
