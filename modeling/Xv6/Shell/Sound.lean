import Xv6.Shell.Steps

/-!
# What the parser returns is derived

A function of the parser returns a tree for the tokens that it passed, and its words are
longest runs of word characters. Every call of `parseline` in a block and every right side
comes after an operator, so four steps for each token ahead are enough.
-/

namespace Xv6.Shell

open List

variable {n i : ℕ} {rs : List (Redir Slice)}

section Sound

structure ReadsRedirs (s : List Char) (cmd : Cmd Slice) (i : ℕ) (cmd' : Cmd Slice) (j : ℕ) :
    Prop where
  le : j ≤ s.length
  redirs : ∃ us rs, ahead s i = us ++ ahead s j ∧ Redirs us (rs.map (Redir.map (text s))) ∧
    cmd' = cmd.wrap rs ∧ ∀ r ∈ rs, Cut s r.file

structure ReadsArgs (s : List Char) (argv : List Slice) (rs : List (Redir Slice)) (i : ℕ)
    (cmd' : Cmd Slice) (j : ℕ) : Prop where
  le : j ≤ s.length
  args : ∃ ts argv' rs', ahead s i = ts ++ ahead s j ∧
    Args ts (argv'.map (text s)) (rs'.map (Redir.map (text s))) ∧
    cmd' = (Cmd.exec (argv ++ argv')).wrap (rs ++ rs') ∧
    (argv ++ argv').length ≤ maxArgs - 1 ∧ (∀ a ∈ argv', Cut s a) ∧ ∀ r ∈ rs', Cut s r.file

/-- What a function of the parser returns: a tree for the tokens that it passed. -/
structure Reads (s : List Char) (N : Nonterminal) (i : ℕ) (cmd : Cmd Slice) (j : ℕ) : Prop where
  le : j ≤ s.length
  derives : ∃ us, ahead s i = us ++ ahead s j ∧ Derives N us (cmd.map (text s))
  cut : ∀ w ∈ cmd.words, Cut s w

variable {s : List Char}

theorem ReadsRedirs.cons {cmd cmd' : Cmd Slice} {file : Slice} {mode fd i j k : ℕ} {t : Token}
    (h : ReadsRedirs s (.redir cmd file mode fd) k cmd' j)
    (hi : ahead s i = t :: .word (text s file) :: ahead s k) (hcut : Cut s file)
    (ht : t.redirects = some (mode, fd)) : ReadsRedirs s cmd i cmd' j := by
  obtain ⟨us, rs, hus, hredirs, hcmd, hcuts⟩ := h.redirs
  refine ⟨h.le, t :: .word (text s file) :: us, ⟨file, mode, fd⟩ :: rs, ?_, .cons ht hredirs,
    hcmd, ?_⟩
  · rw [hi, hus]
    rfl
  · exact forall_mem_cons.2 ⟨hcut, hcuts⟩

theorem ReadsArgs.nil {argv : List Slice} {i j : ℕ} (hj : j ≤ s.length)
    (hahead : ahead s j = ahead s i) (hargv : argv.length ≤ maxArgs - 1) :
    ReadsArgs s argv rs i ((Cmd.exec argv).wrap rs) j := by
  refine ⟨hj, [], [], [], hahead.symm, .nil, ?_, ?_, forall_mem_nil _, forall_mem_nil _⟩
  · rw [append_nil, append_nil]
  · rw [append_nil]
    exact hargv

theorem ReadsArgs.cons {argv : List Slice} {rs rs' : List (Redir Slice)} {a : Slice}
    {us : List Token} {i j k : ℕ} {cmd' : Cmd Slice}
    (h : ReadsArgs s (argv ++ [a]) (rs ++ rs') k cmd' j)
    (hi : ahead s i = .word (text s a) :: (us ++ ahead s k)) (ha : Cut s a)
    (hredirs : Redirs us (rs'.map (Redir.map (text s)))) (hrs : ∀ r ∈ rs', Cut s r.file) :
    ReadsArgs s argv rs i cmd' j := by
  obtain ⟨ts, argv', rs'', hts, hargs, hcmd, hmax, hargv', hrs''⟩ := h.args
  rw [append_assoc, singleton_append] at hcmd hmax
  rw [append_assoc] at hcmd
  refine ⟨h.le, .word (text s a) :: (us ++ ts), a :: argv', rs' ++ rs'', ?_, ?_, hcmd, hmax,
    forall_mem_cons.2 ⟨ha, hargv'⟩, forall_mem_append.2 ⟨hrs, hrs''⟩⟩
  · rw [hi, hts, cons_append, append_assoc]
  · rw [map_cons, map_append]
    exact .cons hredirs hargs

variable (hs : nul ∉ s)

include hs

theorem parseredirs_sound {n : ℕ} {cmd : Cmd Slice} {i : ℕ} (hi : i ≤ s.length)
    (hn : (ahead s i).length < n) : Returns (ReadsRedirs s cmd i) (parseredirs s n cmd i) := by
  induction n generalizing cmd i with
  | zero => exact absurd hn (Nat.not_lt_zero _)
  | succ n ih =>
    by_cases hstop : ∀ t ∈ (ahead s i).head?, t.redirects = none
    · obtain ⟨k, hparse, hahead, hk⟩ := parseredirs_stop hs n cmd hstop
      rw [hparse]
      exact ⟨hk hi, [], [], hahead.symm, .nil, rfl, fun _ hr => absurd hr not_mem_nil⟩
    push Not at hstop
    obtain ⟨t, ht, hredir⟩ := hstop
    obtain ⟨⟨mode, fd⟩, hredir⟩ := Option.ne_none_iff_exists'.1 hredir
    obtain ⟨ts, hts⟩ := List.head?_eq_some_iff.1 ht
    by_cases hword : ∃ w us, ts = .word w :: us
    · obtain ⟨w, us, rfl⟩ := hword
      obtain ⟨file, k, hparse, hahead, hcut, htext, hk⟩ :=
        parseredirs_redir hs n cmd hts hredir
      have hlen : (ahead s k).length < n := by
        rw [hts, length_cons, length_cons] at hn
        rw [hahead]
        omega
      rw [hparse]
      refine (ih (hk hi) hlen).mono fun cmd' j h => h.cons ?_ hcut hredir
      rw [hts, htext, hahead]
    · rw [parseredirs_missing hs n cmd hts (by rw [hredir]; rfl) fun w us h => hword ⟨w, us, h⟩]
      exact Panic.noConfusion

theorem parseargs_sound {n : ℕ} (argv : List Slice) {i : ℕ}
    (hi : i ≤ s.length) (hn : (ahead s i).length < n) (hargv : argv.length ≤ maxArgs - 1) :
    Returns (ReadsArgs s argv rs i) (parseargs s n ((Cmd.exec argv).wrap rs) argv.length i) := by
  induction n generalizing argv rs i with
  | zero => exact absurd hn (Nat.not_lt_zero _)
  | succ n ih =>
    by_cases hstop : ∀ t ∈ (ahead s i).head?, t.ends = true
    · obtain ⟨k, hparse, hahead, hk⟩ := parseargs_stop hs n ((Cmd.exec argv).wrap rs) argv.length
        hstop
      rw [hparse]
      exact .nil (hk hi) hahead hargv
    push Not at hstop
    obtain ⟨t, ht, hends⟩ := hstop
    obtain ⟨ts, hts⟩ := List.head?_eq_some_iff.1 ht
    by_cases hword : ∃ w, t = .word w
    · obtain ⟨w, rfl⟩ := hword
      obtain ⟨a, k, hparse, hahead, hcut, htext, hk⟩ := parseargs_word hs n
        ((Cmd.exec argv).wrap rs) argv.length hts
      rw [hts, length_cons, Nat.add_lt_add_iff_right, ← hahead] at hn
      rw [hparse]
      split
      next => exact Panic.noConfusion
      next hmax =>
        rw [Cmd.addArg_wrap]
        refine (parseredirs_sound hs (hk hi) hn).bind ?_
        rintro cmd' j ⟨hj, us, rs', hus, hredirs, rfl, hrs⟩
        have hlen : (ahead s j).length < n := by
          rw [hus, length_append] at hn
          omega
        have hargc : (argv ++ [a]).length = argv.length + 1 := length_append
        have hargv' : (argv ++ [a]).length ≤ maxArgs - 1 :=
          hargc ▸ Nat.le_sub_one_of_lt (Nat.lt_of_not_le hmax)
        rw [← Cmd.wrap_append]
        refine (hargc ▸ ih (argv ++ [a]) hj hlen hargv').mono fun cmd' k' h => ?_
        refine h.cons ?_ hcut hredirs hrs
        rw [hts, htext, ← hus, hahead]
    · rw [parseargs_notWord hs n _ _ hts (Bool.eq_false_iff.2 hends) fun w h => hword ⟨w, h⟩]
      exact Panic.noConfusion

theorem parsebacks_sound {n : ℕ} {cmd : Cmd Slice} {i : ℕ} (hi : i ≤ s.length)
    (hn : (ahead s i).length < n) :
    Returns (fun cmd' j => j ≤ s.length ∧ ∃ k, ahead s i = List.replicate k .amp ++ ahead s j ∧
      cmd' = Cmd.back^[k] cmd) (parsebacks s n cmd i) := by
  induction n generalizing cmd i with
  | zero => exact absurd hn (Nat.not_lt_zero _)
  | succ n ih =>
    by_cases hamp : (ahead s i).head? = some .amp
    · obtain ⟨ts, hts⟩ := List.head?_eq_some_iff.1 hamp
      obtain ⟨k, hparse, hahead, hk⟩ := parsebacks_amp hs n cmd hts
      rw [hts, length_cons, Nat.add_lt_add_iff_right, ← hahead] at hn
      rw [hparse]
      refine (ih (hk hi) hn).mono ?_
      rintro cmd' j ⟨hj, m, hm, rfl⟩
      refine ⟨hj, m + 1, ?_, rfl⟩
      rw [hts, ← hahead, hm]
      rfl
    · obtain ⟨k, hparse, hahead, hk⟩ := parsebacks_stop hs n cmd hamp
      rw [hparse]
      exact ⟨hk hi, 0, hahead.symm, rfl⟩

/-- The four functions, with a step for each level of each token ahead. -/
structure Sound (s : List Char) (n : ℕ) : Prop where
  line : ∀ i ≤ s.length, 4 * (ahead s i).length + 4 ≤ n →
    Returns (Reads s .line i) (parseline s n i)
  pipe : ∀ i ≤ s.length, 4 * (ahead s i).length + 3 ≤ n →
    Returns (Reads s .pipe i) (parsepipe s n i)
  exec : ∀ i ≤ s.length, 4 * (ahead s i).length + 2 ≤ n → Returns (Reads s .cmd i) (parseexec s n i)
  block : ∀ i ≤ s.length, 4 * (ahead s i).length + 1 ≤ n →
    Returns (Reads s .cmd i) (parseblock s n i)

section

variable (h : Sound s n) (hi : i ≤ s.length)
include h hi

theorem parseline_sound (hn : 4 * (ahead s i).length + 4 ≤ n + 1) :
    Returns (Reads s .line i) (parseline s (n + 1) i) := by
  rw [parseline]
  refine (h.pipe i hi (by omega)).bind ?_
  rintro cmd j ⟨hj, ⟨us, hus, hpipe⟩, hcut⟩
  have hlen := congrArg List.length hus
  rw [length_append] at hlen
  refine (parsebacks_sound hs hj (by omega)).bind ?_
  rintro cmd' j' ⟨hj', m, hm, rfl⟩
  have hcut' : ∀ w ∈ (Cmd.back^[m] cmd).words, Cut s w := by
    rw [Cmd.words_iterate_back]
    exact hcut
  obtain ⟨k, hpeek, -, hsemi, hk⟩ | ⟨k, hpeek, hahead, hk⟩ :=
    peek_gettoken (c := ';') hs j' rfl (by decide)
  · have hlen' := congrArg List.length hm
    have hlen'' := congrArg List.length hsemi
    rw [length_append] at hlen'
    rw [length_cons] at hlen''
    simp only [hpeek, if_true]
    refine (h.line _ (gettoken_le (hk hj')) (by omega)).bind ?_
    rintro right j'' ⟨hj'', ⟨us', hus', hline⟩, hcut''⟩
    refine ⟨hj'', ⟨us ++ (List.replicate m .amp ++ .semi :: us'), ?_, ?_⟩,
      forall_mem_append.2 ⟨hcut', hcut''⟩⟩
    · rw [hus, hm, hsemi, hus']
      simp only [append_assoc, cons_append]
    · rw [Cmd.map, Cmd.map_iterate_back]
      exact .list hpipe m hline
  · simp only [hpeek]
    refine ⟨hk hj', ⟨us ++ List.replicate m .amp, ?_, ?_⟩, hcut'⟩
    · rw [hus, hm, hahead, append_assoc]
    · rw [Cmd.map_iterate_back]
      exact .line hpipe m

theorem parsepipe_sound (hn : 4 * (ahead s i).length + 3 ≤ n + 1) :
    Returns (Reads s .pipe i) (parsepipe s (n + 1) i) := by
  rw [parsepipe]
  refine (h.exec i hi (by omega)).bind ?_
  rintro cmd j ⟨hj, ⟨us, hus, hcmd⟩, hcut⟩
  obtain ⟨k, hpeek, -, hbar, hk⟩ | ⟨k, hpeek, hahead, hk⟩ :=
    peek_gettoken (c := '|') hs j rfl (by decide)
  · have hlen := congrArg List.length hus
    have hlen' := congrArg List.length hbar
    rw [length_append] at hlen
    rw [length_cons] at hlen'
    simp only [hpeek, if_true]
    refine (h.pipe _ (gettoken_le (hk hj)) (by omega)).bind ?_
    rintro right j' ⟨hj', ⟨us', hus', hpipe⟩, hcut'⟩
    refine ⟨hj', ⟨us ++ .pipe :: us', ?_, .pipe hcmd hpipe⟩,
      forall_mem_append.2 ⟨hcut, hcut'⟩⟩
    rw [hus, hbar, hus', append_assoc, cons_append]
  · simp only [hpeek]
    exact ⟨hk hj, ⟨us, hahead ▸ hus, .cmd hcmd⟩, hcut⟩

theorem parseblock_sound (hn : 4 * (ahead s i).length + 1 ≤ n + 1) :
    Returns (Reads s .cmd i) (parseblock s (n + 1) i) := by
  rw [parseblock]
  obtain ⟨k, hpeek, -, hopen, hk⟩ | ⟨k, hpeek, -⟩ :=
    peek_gettoken (c := '(') hs i rfl (by decide)
  · have hlen := congrArg List.length hopen
    rw [length_cons] at hlen
    simp only [hpeek, if_true]
    refine (h.line _ (gettoken_le (hk hi)) (by omega)).bind ?_
    rintro cmd j ⟨hj, ⟨us, hus, hline⟩, hcut⟩
    obtain ⟨k', hpeek', -, hclose, hk'⟩ | ⟨k', hpeek', -⟩ :=
      peek_gettoken (c := ')') hs j rfl (by decide)
    · have hlen' := congrArg List.length hus
      have hlen'' := congrArg List.length hclose
      rw [length_append] at hlen'
      rw [length_cons] at hlen''
      simp only [hpeek', if_true]
      refine (parseredirs_sound hs (gettoken_le (hk' hj)) (by omega)).mono ?_
      rintro cmd' j' ⟨hj', us', rs, hus', hredirs, rfl, hrs⟩
      refine ⟨hj', ⟨.lparen :: (us ++ .rparen :: us'), ?_, ?_⟩, ?_⟩
      · rw [hopen, hus, hclose, hus', cons_append, append_assoc, cons_append]
      · rw [Cmd.map_wrap]
        exact .block hline hredirs
      · rw [Cmd.words_wrap]
        exact forall_mem_append.2 ⟨hcut, forall_mem_map.2 hrs⟩
    · simp only [hpeek']
      exact Panic.noConfusion
  · simp only [hpeek]
    exact Panic.noConfusion

theorem parseexec_sound (hn : 4 * (ahead s i).length + 2 ≤ n + 1) :
    Returns (Reads s .cmd i) (parseexec s (n + 1) i) := by
  rw [parseexec]
  obtain ⟨k, hpeek, hahead, -, hk⟩ | ⟨k, hpeek, hahead, hk⟩ :=
    peek_gettoken (c := '(') hs i rfl (by decide)
  · simp only [hpeek, if_true]
    refine (h.block k (hk hi) (by rw [hahead]; omega)).mono ?_
    rintro cmd j ⟨hj, hderives, hcut⟩
    exact ⟨hj, hahead ▸ hderives, hcut⟩
  · simp only [hpeek]
    refine (parseredirs_sound hs (hk hi) (by rw [hahead]; omega)).bind ?_
    rintro cmd j ⟨hj, us, rs, hus, hredirs, rfl, hrs⟩
    have hlen := congrArg List.length hus
    rw [length_append, hahead] at hlen
    refine (parseargs_sound hs [] hj (by omega) (by decide)).mono ?_
    rintro cmd j' ⟨hj', ts, argv, rs', hts, hargs, rfl, hmax, hargv, hrs'⟩
    refine ⟨hj', ⟨us ++ ts, ?_, ?_⟩, ?_⟩
    · rw [← hahead, hus, hts, append_assoc]
    · rw [Cmd.map_wrap, map_append]
      exact .exec hredirs hargs ((length_map _).trans_le hmax)
    · rw [Cmd.words_wrap, map_append]
      exact forall_mem_append.2 ⟨hargv, forall_mem_append.2
        ⟨forall_mem_map.2 hrs, forall_mem_map.2 hrs'⟩⟩

end

theorem sound (n : ℕ) : Sound s n := by
  induction n with
  | zero =>
    refine ⟨?_, ?_, ?_, ?_⟩
    all_goals
      intro i _ hn
      exact absurd hn (Nat.not_succ_le_zero _)
  | succ n ih =>
    exact ⟨fun i hi => parseline_sound hs ih hi, fun i hi => parsepipe_sound hs ih hi,
      fun i hi => parseexec_sound hs ih hi, fun i hi => parseblock_sound hs ih hi⟩

end Sound

end Xv6.Shell
