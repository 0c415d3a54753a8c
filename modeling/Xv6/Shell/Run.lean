import Xv6.Param
import Xv6.Shell.Accepts

/-!
# Running a command

`runcmd` of `sh.c`, with the descriptors of each process that it forks: which programs are
executed, and with which descriptors. `opens` says at which places of the command the `open`
succeeds; if it fails the process ends. `fork` does not fail, and a process that is waited for
ends.

What a command means is that each program has three descriptors, those of the shell unless a
redirection or a pipe replaces one.
-/

namespace Xv6.Shell

open Function List

/-- What a descriptor refers to. A pipe is named by its place in the command: the path to it
from the root of the tree, last step first. -/
inductive Obj (W : Type*) where
  | given (fd : ℕ)
  | file (name : W) (mode : ℕ)
  | pipe (i : List Bool) (writer : Bool)

abbrev Table (W : Type*) := ℕ → Option (Obj W)

variable {W : Type*} {t : Table W} {env : ℕ → Obj W} {fd : ℕ} {x : Obj W} {i : List Bool}
  {ts : List Token} {rs : List (Redir (List Char))}

def close (t : Table W) (fd : ℕ) : Table W := update t fd none

/-- `fdalloc`: the lowest free descriptor, and the table with it. -/
def fdalloc (t : Table W) (x : Obj W) : Option (ℕ × Table W) :=
  ((range nOFile).find? fun fd => (t fd).isNone).map fun fd => (fd, update t fd (some x))

def dup (t : Table W) (fd : ℕ) : Table W := (((t fd).bind (fdalloc t)).map Prod.snd).getD t

/-- The programs that the processes of a command execute. -/
def runcmd (opens : List Bool → Bool) : List Bool → Table W → Cmd W → List (List W × Table W)
  | _, _, .exec [] => []
  | _, t, .exec (w :: ws) => [(w :: ws, t)]
  | i, t, .redir cmd file mode fd =>
    match fdalloc (close t fd) (.file file mode) with
    | some (_, t) => if opens i then runcmd opens (false :: i) t cmd else []
    | none => []
  | i, t, .list left right =>
    runcmd opens (false :: i) t left ++ runcmd opens (true :: i) t right
  | i, t, .pipe left right =>
    match fdalloc t (.pipe i false) with
    | some (p₀, t) =>
      match fdalloc t (.pipe i true) with
      | some (p₁, t) =>
        runcmd opens (false :: i) (close (close (dup (close t 1) p₁) p₀) p₁) left ++
          runcmd opens (true :: i) (close (close (dup (close t 0) p₀) p₀) p₁) right
      | none => []
    | none => []
  | i, t, .back cmd => runcmd opens i t cmd

/-- What a command means: its programs, each with its three descriptors. -/
def programs (opens : List Bool → Bool) :
    List Bool → (ℕ → Obj W) → Cmd W → List (List W × (ℕ → Obj W))
  | _, _, .exec [] => []
  | _, env, .exec (w :: ws) => [(w :: ws, env)]
  | i, env, .redir cmd file mode fd =>
    if opens i then programs opens (false :: i) (update env fd (.file file mode)) cmd
    else []
  | i, env, .list left right =>
    programs opens (false :: i) env left ++ programs opens (true :: i) env right
  | i, env, .pipe left right =>
    programs opens (false :: i) (update env 1 (.pipe i true)) left ++
      programs opens (true :: i) (update env 0 (.pipe i false)) right
  | i, env, .back cmd => programs opens i env cmd

/-- The table in which just the three descriptors are open. -/
def three (env : ℕ → Obj W) : Table W := fun fd => if fd < 3 then some (env fd) else none

/-- Every redirection is of one of the three descriptors. -/
def Cmd.Standard : Cmd W → Prop
  | .exec _ => True
  | .redir cmd _ _ fd => fd < 3 ∧ cmd.Standard
  | .pipe left right | .list left right => left.Standard ∧ right.Standard
  | .back cmd => cmd.Standard

theorem Cmd.Standard.wrap {cmd : Cmd W} {rs : List (Redir W)} (h : cmd.Standard)
    (hrs : ∀ r ∈ rs, r.fd < 3) : (cmd.wrap rs).Standard :=
  foldlRecOn rs _ h fun _ h r hr => ⟨hrs r hr, h⟩

theorem Cmd.Standard.back {cmd : Cmd W} (h : cmd.Standard) (k : ℕ) :
    (Cmd.back^[k] cmd).Standard :=
  Iterate.rec Cmd.Standard (f := Cmd.back) h (fun _ h => h) k

theorem Redirs.lt_three (h : Redirs ts rs) : ∀ r ∈ rs, r.fd < 3 := by
  induction h with
  | nil => simp
  | @cons t _ _ _ _ _ ht _ ih =>
    refine forall_mem_cons.2 ⟨?_, ih⟩
    cases t <;> cases ht <;> simp

theorem Args.lt_three {argv : List (List Char)} (h : Args ts argv rs) : ∀ r ∈ rs, r.fd < 3 := by
  induction h with
  | nil => simp
  | cons hredirs _ ih => exact forall_mem_append.2 ⟨hredirs.lt_three, ih⟩

/-- The parser redirects only the standard input and output. -/
theorem Derives.standard {n : Nonterminal} {t : Cmd (List Char)} (h : Derives n ts t) :
    t.Standard := by
  induction h with
  | block _ hredirs ih => exact ih.wrap hredirs.lt_three
  | exec hredirs hargs =>
    exact .wrap trivial (forall_mem_append.2 ⟨hredirs.lt_three, hargs.lt_three⟩)
  | cmd _ ih => exact ih
  | pipe _ _ iht ihu => exact ⟨iht, ihu⟩
  | line _ k ih => exact ih.back k
  | list _ k _ iht ihu => exact ⟨iht.back k, ihu⟩

theorem fdalloc_eq (fd : ℕ) (hfd : fd < nOFile) (hfree : t fd = none)
    (hbelow : ∀ k < fd, t k ≠ none) : fdalloc t x = some (fd, update t fd (some x)) := by
  rw [fdalloc, find?_range_eq_some.2 ⟨by simp [hfree], mem_range.2 hfd, fun k hk => ?_⟩,
    Option.map_some]
  simpa using Option.isSome_iff_ne_none.2 (hbelow k hk)

/-- A closed one of the three descriptors is the lowest free one. -/
theorem fdalloc_close (hfd : fd < 3) (ht : ∀ k < 3, t k ≠ none) :
    fdalloc (close t fd) x = some (fd, update t fd (some x)) := by
  rw [fdalloc_eq fd (Nat.lt_trans hfd (by decide)), close, update_idem]
  · exact update_self _ _ _
  · intro k hk
    rw [close, update_of_ne (Nat.ne_of_lt hk)]
    exact ht k (Nat.lt_trans hk hfd)

theorem update_three (hfd : fd < 3) : update (three env) fd (some x) = three (update env fd x) := by
  funext k
  simp only [three, update_apply]
  grind

/-- The table after `pipe`. -/
def piped (env : ℕ → Obj W) (i : List Bool) : Table W :=
  update (update (three env) 3 (some (.pipe i false))) 4 (some (.pipe i true))

/-- What a child of a pipe does with it before it runs its command. -/
theorem connect (fd p : ℕ) (hfd : fd < 3) (hp : 3 ≤ p) (hx : piped env i p = some x) :
    close (close (dup (close (piped env i) fd) p) 3) 4 = three (update env fd x) := by
  have hcopy : close (piped env i) fd p = some x := by
    rwa [close, update_of_ne (by omega)]
  rw [dup, hcopy, Option.bind_some, fdalloc_close hfd, ← update_three hfd]
  · funext k
    simp only [Option.map_some, Option.getD_some, close, piped, three, update_apply]
    grind
  · simp only [piped, three, update_apply]
    grind

theorem runcmd_eq (opens : List Bool → Bool) (i : List Bool) (env : ℕ → Obj W)
    {cmd : Cmd W} (h : cmd.Standard) : runcmd opens i (three env) cmd =
      (programs opens i env cmd).map fun x => (x.1, three x.2) := by
  induction cmd generalizing i env with
  | exec argv => cases argv <;> rfl
  | redir cmd file mode fd ih =>
    rw [runcmd, programs, fdalloc_close h.1 (by simp +contextual [three]), update_three h.1]
    by_cases hopens : opens i
    · simpa [hopens] using ih _ _ h.2
    · simp [hopens]
  | list left right ihl ihr => rw [runcmd, programs, map_append, ihl _ _ h.1, ihr _ _ h.2]
  | back cmd ih => exact ih i env h
  | pipe left right ihl ihr =>
    have h₀ : fdalloc (three env) (.pipe i false) =
        some (3, update (three env) 3 (some (.pipe i false))) :=
      fdalloc_eq 3 (by decide) rfl (by simp +contextual [three])
    have h₁ : fdalloc (update (three env) 3 (some (.pipe i false))) (.pipe i true) =
        some (4, piped env i) := by
      refine fdalloc_eq 4 (by decide) rfl fun k hk => ?_
      simp only [three, update_apply]
      grind
    rw [programs, map_append, ← ihl _ _ h.1, ← ihr _ _ h.2]
    simp only [runcmd, h₀, h₁]
    rw [connect 1 4 (by decide) (by decide) rfl, connect 0 3 (by decide) (by decide) rfl]

/-- Every program that the shell executes for a line that its parser accepts has the three
descriptors that the command means for it, and no others: no end of a pipe is left open. -/
theorem runcmd_connects (opens : List Bool → Bool) (env : ℕ → Obj (List Char))
    {s buf : List Char} (hs : nul ∉ s) {cmd : Cmd Slice} (h : parsecmd s = .ok (cmd, buf)) :
    runcmd opens [] (three env) (cmd.map fun w => cstring buf w.q) =
      (programs opens [] env (cmd.map fun w => cstring buf w.q)).map
        fun x => (x.1, three x.2) :=
  runcmd_eq opens [] env (parsecmd_derives hs h).standard

theorem runcmd_connects_pipe :
    runcmd (fun _ => true) [] (three .given)
        (.pipe (.redir (.exec ["a".toList]) "b".toList oRdonly 0) (.exec ["c".toList])) =
      [(["a".toList],
          three (update (update .given 1 (.pipe [] true)) 0 (.file "b".toList oRdonly))),
        (["c".toList], three (update .given 0 (.pipe [] false)))] := by
  have hrun : parsecmd "a<b|c".toList = .ok
      (.pipe (.redir (.exec [⟨0, 1⟩]) ⟨2, 3⟩ oRdonly 0) (.exec [⟨4, 5⟩]),
        "a\x00b\x00c\x00".toList) := by decide +kernel
  exact runcmd_connects (fun _ => true) .given (by decide) hrun

end Xv6.Shell
