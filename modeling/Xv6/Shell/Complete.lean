import Xv6.Shell.Steps

/-!
# The parser takes every derivation

By induction on a derivation, the function of its nonterminal passes over its tokens and
builds its tree, when the token after them cannot go on with it.
-/

namespace Xv6.Shell

open List Cmd Nonterminal

variable {rs : List (Redir (List Char))} {ts : List Token} {t : Cmd (List Char)} {rest : List Token}
  {argv : List (List Char)}

section Complete

def Nonterminal.parse : Nonterminal → List Char → ℕ → ℕ → Except Panic (Cmd Slice × ℕ)
  | .line => parseline
  | .pipe => parsepipe
  | .cmd => parseexec

def Nonterminal.steps : Nonterminal → ℕ
  | .line => 4
  | .pipe => 3
  | .cmd => 2

def Nonterminal.stops : Nonterminal → Token → Bool
  | .line, .rparen => true
  | .pipe, .rparen | .pipe, .amp | .pipe, .semi => true
  | .cmd, t => t.ends
  | _, _ => false

def Takes (s : List Char) (N : Nonterminal) (ts : List Token) (t : Cmd (List Char)) : Prop :=
  ∀ ⦃i rest n⦄, ahead s i = ts ++ rest → (∀ u ∈ rest.head?, N.stops u = true) →
    4 * ts.length + N.steps ≤ n →
    ∃ cmd j, N.parse s n i = .ok (cmd, j) ∧ cmd.map (text s) = t ∧ ahead s j = rest

theorem bind_of_ok {α β : Type} {x : Except Panic α} {a : α} (hx : x = .ok a)
    (f : α → Except Panic β) : (x >>= f) = f a := hx ▸ rfl

theorem exists_succ_of_lt {m n : ℕ} (h : m < n) : ∃ k, n = k + 1 :=
  Nat.exists_eq_add_one_of_ne_zero (Nat.ne_zero_of_lt h)

theorem head_append {p : Token → Prop} {us rest : List Token} (hus : ∀ t ∈ us.head?, p t)
    (hrest : ∀ t ∈ rest.head?, p t) : ∀ t ∈ (us ++ rest).head?, p t := by
  cases us with
  | nil => exact hrest
  | cons u us => exact hus

theorem Redirs.head {us : List Token} (h : Redirs us rs) :
    ∀ t ∈ us.head?, t.redirects.isSome = true := by
  cases h with
  | nil =>
    rintro t ⟨⟩
  | cons ht hrest =>
    rintro t ⟨rfl⟩
    rw [ht]
    rfl

theorem Args.head (h : Args ts argv rs) : ∀ t ∈ ts.head?, ∃ w, t = .word w := by
  cases h with
  | nil =>
    rintro t ⟨⟩
  | cons hredirs hrest =>
    rintro t ⟨rfl⟩
    exact ⟨_, rfl⟩

variable {s : List Char} (hs : nul ∉ s)

include hs

theorem parseredirs_complete {us : List Token} (h : Redirs us rs) {n : ℕ} (cmd : Cmd Slice) {i : ℕ}
    (hi : ahead s i = us ++ rest) (hrest : ∀ t ∈ rest.head?, t.redirects = none)
    (hn : us.length < n) :
    ∃ rs' j, parseredirs s n cmd i = .ok (cmd.wrap rs', j) ∧
      rs'.map (Redir.map (text s)) = rs ∧ ahead s j = rest := by
  induction h generalizing n cmd i with
  | nil =>
    obtain ⟨n, rfl⟩ := exists_succ_of_lt hn
    rw [nil_append] at hi
    obtain ⟨k, hparse, hahead, -⟩ := parseredirs_stop hs n cmd (hi ▸ hrest)
    exact ⟨[], k, hparse, rfl, hahead.trans hi⟩
  | @cons t mode fd w ts rs ht hredirs ih =>
    obtain ⟨n, rfl⟩ := exists_succ_of_lt hn
    obtain ⟨file, k, hparse, hahead, -, htext, -⟩ := parseredirs_redir hs n cmd hi ht
    rw [length_cons, length_cons] at hn
    obtain ⟨rs', j, hrest', hmap, hj⟩ := ih (n := n) (.redir cmd file mode fd) hahead (by omega)
    refine ⟨⟨file, mode, fd⟩ :: rs', j, hparse.trans hrest', ?_, hj⟩
    rw [map_cons, hmap, Redir.map, htext]

theorem parseargs_complete (h : Args ts argv rs) {n : ℕ} (argv₀ : List Slice)
    (rs₀ : List (Redir Slice)) {i : ℕ} (hi : ahead s i = ts ++ rest)
    (hrest : ∀ t ∈ rest.head?, t.ends = true) (hn : ts.length < n)
    (hmax : argv₀.length + argv.length ≤ maxArgs - 1) :
    ∃ argv' rs' j, parseargs s n ((exec argv₀).wrap rs₀) argv₀.length i =
        .ok ((exec (argv₀ ++ argv')).wrap (rs₀ ++ rs'), j) ∧
      argv'.map (text s) = argv ∧ rs'.map (Redir.map (text s)) = rs ∧ ahead s j = rest := by
  induction h generalizing n argv₀ rs₀ i with
  | nil =>
    obtain ⟨n, rfl⟩ := exists_succ_of_lt hn
    rw [nil_append] at hi
    obtain ⟨k, hparse, hahead, -⟩ := parseargs_stop hs n ((exec argv₀).wrap rs₀) argv₀.length
      (hi ▸ hrest)
    refine ⟨[], [], k, ?_, rfl, rfl, hahead.trans hi⟩
    rw [hparse, append_nil, append_nil]
  | @cons w us ts argv rs rs' hredirs hargs ih =>
    obtain ⟨n, rfl⟩ := exists_succ_of_lt hn
    obtain ⟨a, k, hparse, hahead, -, htext, -⟩ := parseargs_word hs n
      ((exec argv₀).wrap rs₀) argv₀.length hi
    rw [length_cons, length_append] at hn
    rw [length_cons] at hmax
    have hnext : ∀ t ∈ (ts ++ rest).head?, t.redirects = none := by
      refine head_append (fun t ht => ?_) fun t ht => Token.redirects_of_ends (hrest t ht)
      obtain ⟨w, rfl⟩ := hargs.head t ht
      rfl
    obtain ⟨rs₁, j, hredirs', hmap, hj⟩ := parseredirs_complete hs hredirs
      (((exec argv₀).addArg a).wrap rs₀) (hahead.trans (append_assoc _ _ _)) hnext
      (n := n) (by omega)
    have hargc : (argv₀ ++ [a]).length = argv₀.length + 1 := length_append
    obtain ⟨argv', rs₂, j', hargs', hargv', hrs₂, hj'⟩ := ih (n := n) (argv₀ ++ [a]) (rs₀ ++ rs₁)
      hj (by omega) (by omega)
    refine ⟨a :: argv', rs₁ ++ rs₂, j', ?_, ?_, ?_, hj'⟩
    · have hmax' : ¬maxArgs ≤ argv₀.length + 1 := by
        omega
      rw [hparse, if_neg hmax', addArg_wrap, bind_of_ok hredirs', ← wrap_append]
      rw [hargc, append_assoc, append_assoc] at hargs'
      exact hargs'
    · rw [map_cons, htext, hargv']
    · rw [map_append, hmap, hrs₂]

theorem parsebacks_complete (m : ℕ) {n : ℕ} (cmd : Cmd Slice) {i : ℕ}
    (hi : ahead s i = List.replicate m .amp ++ rest) (hrest : rest.head? ≠ some .amp) (hn : m < n) :
    ∃ j, parsebacks s n cmd i = .ok (back^[m] cmd, j) ∧ ahead s j = rest := by
  induction m generalizing n cmd i with
  | zero =>
    obtain ⟨n, rfl⟩ := exists_succ_of_lt hn
    rw [replicate_zero, nil_append] at hi
    obtain ⟨k, hparse, hahead, -⟩ := parsebacks_stop hs n cmd (hi ▸ hrest)
    exact ⟨k, hparse, hahead.trans hi⟩
  | succ m ih =>
    obtain ⟨n, rfl⟩ := exists_succ_of_lt hn
    obtain ⟨k, hparse, hahead, -⟩ := parsebacks_amp hs n cmd hi
    obtain ⟨j, hparse', hj⟩ := ih (.back cmd) hahead (Nat.lt_of_succ_lt_succ hn)
    exact ⟨j, hparse.trans hparse', hj⟩

theorem takes_exec {us ts : List Token} {rs rs' : List (Redir (List Char))} (hredirs : Redirs us rs)
    (hargs : Args ts argv rs') (hmax : argv.length ≤ maxArgs - 1) :
    Takes s .cmd (us ++ ts) ((Cmd.exec argv).wrap (rs ++ rs')) := by
  intro i rest n hi hrest hn
  rw [append_assoc] at hi
  rw [length_append] at hn
  obtain ⟨n, rfl⟩ := exists_succ_of_lt hn
  have hsteps : 4 * (us.length + ts.length) + 2 ≤ n + 1 := hn
  have hends : ∀ t ∈ rest.head?, t.ends = true := hrest
  have hword : ∀ t ∈ (ts ++ rest).head?, t.redirects = none ∧ t ≠ .lparen := by
    refine head_append (fun t ht => ?_) fun t ht => ?_
    · obtain ⟨w, rfl⟩ := hargs.head t ht
      exact ⟨rfl, Token.noConfusion⟩
    · refine ⟨Token.redirects_of_ends (hends t ht), ?_⟩
      rintro rfl
      exact Bool.false_ne_true (hends _ ht)
  have hopen : (ahead s i).head? ≠ some .lparen := by
    intro h
    refine absurd rfl (head_append (p := (· ≠ .lparen)) (fun t ht => ?_)
      (fun t ht => (hword t ht).2) .lparen (hi ▸ h))
    rintro rfl
    exact Bool.false_ne_true (hredirs.head _ ht)
  obtain ⟨k, hpeek, hahead, -⟩ := peek_pass (c := '(') hs rfl (by decide) hopen
  obtain ⟨rs₁, j, hredirs', hmap, hj⟩ := parseredirs_complete hs hredirs (.exec [])
    (hahead.trans hi) (fun t ht => (hword t ht).1) (n := n) (by omega)
  obtain ⟨argv₁, rs₂, j', hargs', hargv, hrs₂, hj'⟩ := parseargs_complete hs hargs [] rs₁ hj hends
    (n := n) (by omega) (by rw [length_nil]; omega)
  refine ⟨(Cmd.exec argv₁).wrap (rs₁ ++ rs₂), j', ?_, ?_, hj'⟩
  · rw [parse, parseexec]
    simp only [hpeek]
    exact (congrArg (· >>= _) hredirs').trans hargs'
  · rw [Cmd.map_wrap, map_append, hmap, hrs₂, Cmd.map, hargv]

theorem takes_block {ts us : List Token} (hline : Takes s .line ts t) (hredirs : Redirs us rs) :
    Takes s .cmd (.lparen :: (ts ++ .rparen :: us)) (t.wrap rs) := by
  intro i rest n hi hrest hn
  rw [cons_append, append_assoc, cons_append] at hi
  rw [length_cons, length_append, length_cons] at hn
  obtain ⟨n, rfl⟩ : ∃ m, n = m + 1 + 1 := ⟨n - 2, by omega⟩
  obtain ⟨k, hpeek, hahead, -⟩ := peek_take (c := '(') hs rfl (by decide) hi
  obtain ⟨k', hpeek', -, hinside, -⟩ := peek_take (c := '(') hs rfl (by decide) (hahead.trans hi)
  have hparen : ∀ u ∈ (Token.rparen :: (us ++ rest)).head?, line.stops u = true := by
    rintro u ⟨rfl⟩
    rfl
  obtain ⟨cmd, j, hparse, hmap, hj⟩ := hline (n := n) hinside hparen
    (show 4 * ts.length + 4 ≤ n by omega)
  obtain ⟨k'', hpeek'', -, hafter, -⟩ := peek_take (c := ')') hs rfl (by decide) hj
  obtain ⟨rs', j', hparse', hmap', hj'⟩ := parseredirs_complete hs hredirs cmd hafter
    (fun u hu => Token.redirects_of_ends (hrest u hu)) (n := n) (by omega)
  refine ⟨cmd.wrap rs', j', ?_, ?_, hj'⟩
  · rw [parse, parseexec]
    simp only [hpeek, if_true]
    rw [parseblock]
    simp only [hpeek', if_true]
    refine (bind_of_ok hparse _).trans ?_
    simp only [hpeek'', if_true]
    exact hparse'
  · rw [map_wrap, hmap, hmap']

theorem takes_cmd (hcmd : Takes s .cmd ts t) : Takes s .pipe ts t := by
  intro i rest n hi hrest hn
  have hsteps : 4 * ts.length + 3 ≤ n := hn
  obtain ⟨n, rfl⟩ := exists_succ_of_lt hn
  have hends : ∀ u ∈ rest.head?, u.ends = true := fun u hu => by
    have hstop := hrest u hu
    cases u <;> first | rfl | exact hstop
  obtain ⟨cmd, j, hparse, hmap, hj⟩ := hcmd (n := n) hi hends (show 4 * ts.length + 2 ≤ n by omega)
  have hbar : (ahead s j).head? ≠ some .pipe :=
    fun h => Bool.false_ne_true (hrest .pipe (hj ▸ h))
  obtain ⟨k, hpeek, hahead, -⟩ := peek_pass (c := '|') hs rfl (by decide) hbar
  refine ⟨cmd, k, ?_, hmap, hahead.trans hj⟩
  rw [parse, parsepipe]
  refine (bind_of_ok hparse _).trans ?_
  simp only [hpeek]
  rfl

theorem takes_pipe {ts us : List Token} {t u : Cmd (List Char)} (hcmd : Takes s .cmd ts t)
    (hpipe : Takes s .pipe us u) : Takes s .pipe (ts ++ .pipe :: us) (.pipe t u) := by
  intro i rest n hi hrest hn
  rw [append_assoc, cons_append] at hi
  rw [length_append, length_cons] at hn
  obtain ⟨n, rfl⟩ := exists_succ_of_lt hn
  have hbar : ∀ v ∈ (Token.pipe :: (us ++ rest)).head?, v.ends = true := by
    rintro v ⟨rfl⟩
    rfl
  obtain ⟨cmd, j, hparse, hmap, hj⟩ := hcmd (n := n) hi hbar (show 4 * ts.length + 2 ≤ n by omega)
  obtain ⟨k, hpeek, -, hafter, -⟩ := peek_take (c := '|') hs rfl (by decide) hj
  obtain ⟨right, j', hparse', hmap', hj'⟩ := hpipe (n := n) hafter hrest
    (show 4 * us.length + 3 ≤ n by omega)
  refine ⟨.pipe cmd right, j', ?_, ?_, hj'⟩
  · rw [parse, parsepipe]
    refine (bind_of_ok hparse _).trans ?_
    simp only [hpeek, if_true]
    exact congrArg (· >>= _) hparse'
  · rw [Cmd.map, hmap, hmap']

theorem takes_backs (hpipe : Takes s .pipe ts t) (m : ℕ)
    {i n : ℕ} (hi : ahead s i = ts ++ (List.replicate m .amp ++ rest))
    (hrest : ∀ v ∈ rest.head?, Nonterminal.pipe.stops v = true) (hamp : rest.head? ≠ some .amp)
    (hn : 4 * (ts.length + m) + 4 ≤ n + 1) :
    ∃ cmd j j', parsepipe s n i = .ok (cmd, j) ∧
      parsebacks s n cmd j = .ok (back^[m] cmd, j') ∧ cmd.map (text s) = t ∧
      ahead s j' = rest := by
  have hamps : ∀ v ∈ (List.replicate m Token.amp).head?, pipe.stops v = true := by
    intro v hv
    rw [eq_of_mem_replicate (mem_of_head? hv)]
    rfl
  obtain ⟨cmd, j, hparse, hmap, hj⟩ := hpipe (n := n) hi (head_append hamps hrest)
    (show 4 * ts.length + 3 ≤ n by omega)
  obtain ⟨j', hparse', hj'⟩ := parsebacks_complete hs m cmd hj hamp (n := n) (by omega)
  exact ⟨cmd, j, j', hparse, hparse', hmap, hj'⟩

theorem takes_line (hpipe : Takes s .pipe ts t) (m : ℕ) :
    Takes s .line (ts ++ List.replicate m .amp) (back^[m] t) := by
  intro i rest n hi hrest hn
  rw [append_assoc] at hi
  rw [length_append, length_replicate] at hn
  obtain ⟨n, rfl⟩ := exists_succ_of_lt hn
  have hstops : ∀ v ∈ rest.head?, pipe.stops v = true := by
    intro v hv
    have hstop := hrest v hv
    cases v <;> first | rfl | exact hstop
  have hamp : rest.head? ≠ some .amp := fun h => Bool.false_ne_true (hrest .amp h)
  obtain ⟨cmd, j, j', hparse, hparse', hmap, hj'⟩ := takes_backs hs hpipe m hi hstops hamp hn
  have hsemi : (ahead s j').head? ≠ some .semi :=
    fun h => Bool.false_ne_true (hrest .semi (hj' ▸ h))
  obtain ⟨k, hpeek, hahead, -⟩ := peek_pass (c := ';') hs rfl (by decide) hsemi
  refine ⟨back^[m] cmd, k, ?_, ?_, hahead.trans hj'⟩
  · rw [parse, parseline]
    refine (bind_of_ok hparse _).trans ?_
    refine (bind_of_ok hparse' _).trans ?_
    simp only [hpeek]
    rfl
  · rw [map_iterate_back, hmap]

theorem takes_list {ts us : List Token} {t u : Cmd (List Char)} (hpipe : Takes s .pipe ts t)
    (m : ℕ) (hline : Takes s .line us u) :
    Takes s .line (ts ++ (List.replicate m .amp ++ .semi :: us)) (.list (Cmd.back^[m] t) u) := by
  intro i rest n hi hrest hn
  rw [append_assoc, append_assoc, cons_append] at hi
  rw [length_append, length_append, length_replicate, length_cons] at hn
  have hsteps : 4 * (ts.length + (m + (us.length + 1))) + 4 ≤ n := hn
  obtain ⟨n, rfl⟩ := exists_succ_of_lt hn
  have hstops : ∀ v ∈ (Token.semi :: (us ++ rest)).head?, pipe.stops v = true := by
    rintro v ⟨rfl⟩
    rfl
  obtain ⟨cmd, j, j', hparse, hparse', hmap, hj'⟩ := takes_backs hs hpipe m hi hstops
    (fun h => Token.noConfusion (Option.some.inj h)) (n := n) (by omega)
  obtain ⟨k, hpeek, -, hafter, -⟩ := peek_take (c := ';') hs rfl (by decide) hj'
  obtain ⟨right, j'', hparse'', hmap'', hj''⟩ := hline (n := n) hafter hrest
    (show 4 * us.length + 4 ≤ n by omega)
  refine ⟨.list (Cmd.back^[m] cmd) right, j'', ?_, ?_, hj''⟩
  · rw [parse, parseline]
    refine (bind_of_ok hparse _).trans ?_
    refine (bind_of_ok hparse' _).trans ?_
    simp only [hpeek, if_true]
    exact congrArg (· >>= _) hparse''
  · rw [Cmd.map, Cmd.map_iterate_back, hmap, hmap'']

theorem takes {N : Nonterminal} (h : Derives N ts t) : Takes s N ts t := by
  induction h with
  | block _ hredirs ih => exact takes_block hs ih hredirs
  | exec hredirs hargs hmax => exact takes_exec hs hredirs hargs hmax
  | cmd _ ih => exact takes_cmd hs ih
  | pipe _ _ ih ih' => exact takes_pipe hs ih ih'
  | line _ m ih => exact takes_line hs ih m
  | list _ m _ ih ih' => exact takes_list hs ih m ih'

end Complete

end Xv6.Shell
