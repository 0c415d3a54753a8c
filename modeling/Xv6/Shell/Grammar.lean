import Mathlib.Logic.Function.Iterate
import Xv6.Shell.Model

/-!
# The grammar of command lines

A line is cut into tokens: the operators and the words, which are the longest runs of
characters that are neither whitespace nor symbols. `Derives` is the grammar

    line ::= pipe '&'* [';' line]
    pipe ::= cmd ['|' pipe]
    cmd  ::= '(' line ')' redir* | redir* (word redir*)*
    redir ::= ('<' | '>' | '>>') word

with at most `MAXARGS - 1` words, and relates a list of tokens to the tree that it denotes.
-/

namespace Xv6.Shell

open List

inductive Token where
  | word (w : List Char)
  | lt
  | gt
  | gtgt
  | pipe
  | amp
  | semi
  | lparen
  | rparen
  deriving DecidableEq

/-- The operators of one character. -/
def operator : Char → Option Token
  | '<' => some .lt
  | '>' => some .gt
  | '|' => some .pipe
  | '&' => some .amp
  | ';' => some .semi
  | '(' => some .lparen
  | ')' => some .rparen
  | _ => none

def flush (w : List Char) : List Token := if w = [] then [] else [.word w]

/-- The tokens of a line, when the characters of `w` have been read of a word. -/
def lexFrom (w : List Char) : List Char → List Token
  | [] => flush w
  | '>' :: '>' :: l => flush w ++ .gtgt :: lexFrom [] l
  | c :: l =>
    if isSpace c then
      flush w ++ lexFrom [] l
    else
      match operator c with
      | some t => flush w ++ t :: lexFrom [] l
      | none => lexFrom (w ++ [c]) l

def lex (l : List Char) : List Token := lexFrom [] l

structure Redir (W : Type*) where
  file : W
  mode : ℕ
  fd : ℕ

def Redir.map {W V : Type*} (f : W → V) (r : Redir W) : Redir V := ⟨f r.file, r.mode, r.fd⟩

def Cmd.wrap {W : Type*} (cmd : Cmd W) (rs : List (Redir W)) : Cmd W :=
  rs.foldl (fun cmd r => .redir cmd r.file r.mode r.fd) cmd

def Token.redirects : Token → Option (ℕ × ℕ)
  | .lt => some (oRdonly, 0)
  | .gt | .gtgt => some (oWronlyCreate, 1)
  | .word _ | .pipe | .amp | .semi | .lparen | .rparen => none

/-- `redir*`. -/
inductive Redirs : List Token → List (Redir (List Char)) → Prop
  | nil : Redirs [] []
  | cons {t : Token} {mode fd : ℕ} {w : List Char} {ts : List Token}
      {rs : List (Redir (List Char))} (ht : t.redirects = some (mode, fd))
      (hrest : Redirs ts rs) : Redirs (t :: .word w :: ts) (⟨w, mode, fd⟩ :: rs)

/-- `(word redir*)*`. -/
inductive Args : List Token → List (List Char) → List (Redir (List Char)) → Prop
  | nil : Args [] [] []
  | cons {w : List Char} {us ts : List Token} {argv : List (List Char)}
      {rs rs' : List (Redir (List Char))} (hredirs : Redirs us rs) (hrest : Args ts argv rs') :
      Args (.word w :: (us ++ ts)) (w :: argv) (rs ++ rs')

inductive Nonterminal where
  | line
  | pipe
  | cmd

/-- A list of tokens derives from a nonterminal and denotes a tree. -/
inductive Derives : Nonterminal → List Token → Cmd (List Char) → Prop
  | block {ts us : List Token} {t : Cmd (List Char)} {rs : List (Redir (List Char))}
      (hline : Derives .line ts t) (hredirs : Redirs us rs) :
      Derives .cmd (.lparen :: (ts ++ .rparen :: us)) (t.wrap rs)
  | exec {us ts : List Token} {argv : List (List Char)} {rs rs' : List (Redir (List Char))}
      (hredirs : Redirs us rs) (hargs : Args ts argv rs') (hmax : argv.length ≤ maxArgs - 1) :
      Derives .cmd (us ++ ts) ((Cmd.exec argv).wrap (rs ++ rs'))
  | cmd {ts : List Token} {t : Cmd (List Char)} (hcmd : Derives .cmd ts t) :
      Derives .pipe ts t
  | pipe {ts us : List Token} {t u : Cmd (List Char)} (hcmd : Derives .cmd ts t)
      (hpipe : Derives .pipe us u) : Derives .pipe (ts ++ .pipe :: us) (.pipe t u)
  | line {ts : List Token} {t : Cmd (List Char)} (hpipe : Derives .pipe ts t) (k : ℕ) :
      Derives .line (ts ++ List.replicate k .amp) (Cmd.back^[k] t)
  | list {ts us : List Token} {t u : Cmd (List Char)} (hpipe : Derives .pipe ts t) (k : ℕ)
      (hline : Derives .line us u) :
      Derives .line (ts ++ (List.replicate k .amp ++ .semi :: us)) (.list (Cmd.back^[k] t) u)

namespace Cmd

variable {W V : Type*}

def map (f : W → V) : Cmd W → Cmd V
  | .exec argv => .exec (argv.map f)
  | .redir cmd file mode fd => .redir (cmd.map f) (f file) mode fd
  | .pipe left right => .pipe (left.map f) (right.map f)
  | .list left right => .list (left.map f) (right.map f)
  | .back cmd => .back (cmd.map f)

def words : Cmd W → List W
  | .exec argv => argv
  | .redir cmd file _ _ => cmd.words ++ [file]
  | .pipe left right => left.words ++ right.words
  | .list left right => left.words ++ right.words
  | .back cmd => cmd.words

theorem wrap_cons (cmd : Cmd W) (r : Redir W) (rs : List (Redir W)) :
    cmd.wrap (r :: rs) = (redir cmd r.file r.mode r.fd).wrap rs := rfl

theorem wrap_append (cmd : Cmd W) (rs rs' : List (Redir W)) :
    cmd.wrap (rs ++ rs') = (cmd.wrap rs).wrap rs' :=
  foldl_append

theorem addArg_wrap (cmd : Cmd W) (rs : List (Redir W)) (w : W) :
    (cmd.wrap rs).addArg w = (cmd.addArg w).wrap rs := by
  induction rs generalizing cmd with
  | nil => rfl
  | cons r rs ih =>
    rw [wrap_cons, wrap_cons, ih]
    rfl

theorem map_wrap (f : W → V) (cmd : Cmd W) (rs : List (Redir W)) :
    (cmd.wrap rs).map f = (cmd.map f).wrap (rs.map (Redir.map f)) := by
  induction rs generalizing cmd with
  | nil => rfl
  | cons r rs ih =>
    rw [wrap_cons, ih, map_cons, wrap_cons]
    rfl

theorem words_wrap (cmd : Cmd W) (rs : List (Redir W)) :
    (cmd.wrap rs).words = cmd.words ++ rs.map Redir.file := by
  induction rs generalizing cmd with
  | nil => exact (append_nil _).symm
  | cons r rs ih =>
    rw [wrap_cons, ih, map_cons]
    exact append_assoc _ _ _

theorem map_congr {f g : W → V} {cmd : Cmd W} (h : ∀ w ∈ cmd.words, f w = g w) :
    cmd.map f = cmd.map g := by
  induction cmd with
  | exec argv => exact congrArg exec (map_congr_left h)
  | redir cmd file mode fd ih =>
    rw [map, map, ih fun w hw => h w (mem_append_left _ hw),
      h file (mem_append_right _ (mem_singleton_self file))]
  | pipe left right ihl ihr | list left right ihl ihr =>
    rw [map, map, ihl fun w hw => h w (mem_append_left _ hw),
      ihr fun w hw => h w (mem_append_right _ hw)]
  | back cmd ih => rw [map, map, ih h]

theorem map_iterate_back (f : W → V) (cmd : Cmd W) (k : ℕ) :
    (back^[k] cmd).map f = back^[k] (cmd.map f) := by
  induction k generalizing cmd with
  | zero => rfl
  | succ k ih =>
    rw [Function.iterate_succ_apply, ih, Function.iterate_succ_apply]
    rfl

theorem words_iterate_back (cmd : Cmd W) (k : ℕ) : (back^[k] cmd).words = cmd.words := by
  induction k generalizing cmd with
  | zero => rfl
  | succ k ih =>
    rw [Function.iterate_succ_apply, ih]
    rfl

end Cmd

end Xv6.Shell
