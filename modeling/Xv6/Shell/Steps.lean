import Xv6.Shell.Tokens

/-!
# The steps of the parser

Each use of `peek` and `gettoken` in `sh.c` is a case on the tokens ahead. The loops of
`parseredirs`, `parseexec` and `parseline` have a lemma for each way that one round can go.
A parser is judged by what it returns; it may panic, but it must not run out of steps.
-/

namespace Xv6.Shell

open Option

variable {t : Token} {post post' : Cmd Slice → ℕ → Prop} {x : Except Panic (Cmd Slice × ℕ)}
  {c : Char}

def Returns (post : Cmd Slice → ℕ → Prop) : Except Panic (Cmd Slice × ℕ) → Prop
  | .error p => p ≠ .endless
  | .ok (cmd, j) => post cmd j

theorem Returns.bind {f : Cmd Slice × ℕ → Except Panic (Cmd Slice × ℕ)} (hx : Returns post x)
    (hf : ∀ cmd j, post cmd j → Returns post' (f (cmd, j))) : Returns post' (x >>= f) := by
  match x, hx with
  | .error p, hp => exact hp
  | .ok (cmd, j), hpost => exact hf cmd j hpost

theorem Returns.mono
    (hx : Returns post x) (h : ∀ cmd j, post cmd j → post' cmd j) : Returns post' x := by
  match x, hx with
  | .error p, hp => exact hp
  | .ok (cmd, j), hpost => exact h cmd j hpost

section Peek

variable {s : List Char}

def Token.ends : Token → Bool
  | .pipe | .amp | .semi | .rparen => true
  | .word _ | .lt | .gt | .gtgt | .lparen => false

theorem Token.redirects_of_ends (h : t.ends = true) : t.redirects = none := by
  cases t <;> first | rfl | cases h

variable (hs : nul ∉ s)
include hs

theorem peek_eq (i : ℕ) {cs : List Char} (hcs : ∀ c ∈ cs, c ∈ symbols) {p : Token → Bool}
    (hp : ∀ t : Token, decide (t.first ∈ cs) = p t) :
    ∃ k, peek s i cs = ((ahead s i).head?.any p, k) ∧ ahead s k = ahead s i ∧
      (i ≤ s.length → k ≤ s.length) := by
  refine ⟨(peek s i cs).2, Prod.ext ?_ rfl, peek_ahead, peek_le⟩
  rw [peek_spec hs hcs, funext hp]

theorem peek_redir (i : ℕ) :
    ∃ k, peek s i ['<', '>'] = ((ahead s i).head?.any fun t => t.redirects.isSome, k) ∧
      ahead s k = ahead s i ∧ (i ≤ s.length → k ≤ s.length) :=
  peek_eq hs i (by simp [symbols]) fun t => by cases t <;> rfl

theorem peek_ends (i : ℕ) :
    ∃ k, peek s i ['|', ')', '&', ';'] = ((ahead s i).head?.any Token.ends, k) ∧
      ahead s k = ahead s i ∧ (i ≤ s.length → k ≤ s.length) :=
  peek_eq hs i (by simp [symbols]) fun t => by cases t <;> rfl

theorem peek_operator (i : ℕ) (hop : operator c = some t) (hc : c ≠ '>') :
    ∃ k, peek s i [c] = (decide ((ahead s i).head? = some t), k) ∧
      ahead s k = ahead s i ∧ (i ≤ s.length → k ≤ s.length) := by
  obtain ⟨hfirst, hsymbol⟩ := operator_first hop
  have hiff : ∀ u : Token, decide (u.first ∈ [c]) = decide (u = t) := by
    intro u
    refine decide_eq_decide.2 (List.mem_singleton.trans ⟨?_, fun h => h ▸ hfirst⟩)
    rintro rfl
    exact eq_of_operator_first hc hop
  obtain ⟨k, hpeek, hrest⟩ := peek_eq hs i (fun c' hc' => List.mem_singleton.1 hc' ▸ hsymbol) hiff
  refine ⟨k, hpeek.trans (Prod.ext ?_ rfl), hrest⟩
  cases (ahead s i).head? with
  | none => rfl
  | some u => simp

theorem peek_take {i : ℕ} {ts : List Token} (hop : operator c = some t) (hc : c ≠ '>')
    (h : ahead s i = t :: ts) :
    ∃ k, peek s i [c] = (true, k) ∧ ahead s k = ahead s i ∧ ahead s (gettoken s k).ps = ts ∧
      (i ≤ s.length → k ≤ s.length) := by
  obtain ⟨k, hpeek, hahead, hk⟩ := peek_operator hs i hop hc
  obtain ⟨-, hrest, -⟩ := gettoken_cons hs (hahead.trans h)
  refine ⟨k, ?_, hahead, hrest, hk⟩
  rw [hpeek, h, List.head?_cons, decide_eq_true rfl]

theorem peek_pass {i : ℕ} (hop : operator c = some t) (hc : c ≠ '>')
    (h : (ahead s i).head? ≠ some t) :
    ∃ k, peek s i [c] = (false, k) ∧ ahead s k = ahead s i ∧ (i ≤ s.length → k ≤ s.length) := by
  obtain ⟨k, hpeek, hrest⟩ := peek_operator hs i hop hc
  refine ⟨k, ?_, hrest⟩
  rw [hpeek, decide_eq_false h]

theorem peek_gettoken (i : ℕ) (hop : operator c = some t) (hc : c ≠ '>') :
    (∃ k, peek s i [c] = (true, k) ∧ ahead s k = ahead s i ∧
      ahead s i = t :: ahead s (gettoken s k).ps ∧ (i ≤ s.length → k ≤ s.length)) ∨
    ∃ k, peek s i [c] = (false, k) ∧ ahead s k = ahead s i ∧ (i ≤ s.length → k ≤ s.length) := by
  by_cases h : (ahead s i).head? = some t
  · obtain ⟨ts, hts⟩ := List.head?_eq_some_iff.1 h
    obtain ⟨k, hpeek, hahead, hrest, hk⟩ := peek_take hs hop hc hts
    exact .inl ⟨k, hpeek, hahead, hrest.symm ▸ hts, hk⟩
  · exact .inr (peek_pass hs hop hc h)

end Peek

section Step

theorem redircmd_code {mode fd : ℕ} (ht : t.redirects = some (mode, fd))
    (cmd : Cmd Slice) (file : Slice) : redircmd t.code cmd file = .redir cmd file mode fd := by
  cases t <;> cases ht <;> rfl

variable {s : List Char} (hs : nul ∉ s) (n : ℕ) {i : ℕ} (cmd : Cmd Slice) {t : Token}
  {w : List Char} {ts : List Token}

include hs

theorem parseredirs_stop (h : ∀ t ∈ (ahead s i).head?, t.redirects = none) :
    ∃ k, parseredirs s (n + 1) cmd i = .ok (cmd, k) ∧ ahead s k = ahead s i ∧
      (i ≤ s.length → k ≤ s.length) := by
  obtain ⟨k, hpeek, hahead, hk⟩ := peek_redir hs i
  refine ⟨k, ?_, hahead, hk⟩
  have hfalse : ((ahead s i).head?.any fun t => t.redirects.isSome) = false := by
    cases hhead : (ahead s i).head? with
    | none => rfl
    | some t =>
      rw [any_some, h t hhead]
      rfl
  rw [parseredirs, hpeek, hfalse]
  rfl

theorem parseredirs_redir {mode fd : ℕ} (h : ahead s i = t :: .word w :: ts)
    (ht : t.redirects = some (mode, fd)) :
    ∃ file k, parseredirs s (n + 1) cmd i = parseredirs s n (.redir cmd file mode fd) k ∧
      ahead s k = ts ∧ Cut s file ∧ text s file = w ∧ (i ≤ s.length → k ≤ s.length) := by
  obtain ⟨k, hpeek, hahead, hk⟩ := peek_redir hs i
  obtain ⟨hcode, hrest, -⟩ := gettoken_cons hs (hahead.trans h)
  obtain ⟨hword, hrest', hcut⟩ := gettoken_cons hs hrest
  obtain ⟨hcut, htext⟩ := hcut w rfl
  refine ⟨_, _, ?_, hrest', hcut, htext, fun hi => gettoken_le (gettoken_le (hk hi))⟩
  rw [parseredirs, hpeek, h, List.head?_cons, any_some, ht, isSome_some]
  refine (if_pos rfl).trans ((if_neg (not_not_intro hword)).trans ?_)
  rw [hcode, redircmd_code ht]

theorem parseredirs_missing (h : ahead s i = t :: ts) (ht : t.redirects.isSome = true)
    (hts : ∀ w ts', ts ≠ .word w :: ts') : parseredirs s (n + 1) cmd i = .error .missingFile := by
  obtain ⟨k, hpeek, hahead, hk⟩ := peek_redir hs i
  obtain ⟨-, hrest, -⟩ := gettoken_cons hs (hahead.trans h)
  rw [parseredirs, hpeek, h, List.head?_cons, any_some, ht]
  refine (if_pos rfl).trans (if_pos ?_)
  cases ts with
  | nil =>
    rw [(gettoken_nil hs hrest).1]
    decide
  | cons u us =>
    rw [(gettoken_cons hs hrest).1]
    exact Token.code_ne_word fun w hw => hts w us (hw ▸ rfl)

theorem parseargs_stop (argc : ℕ) (h : ∀ t ∈ (ahead s i).head?, t.ends = true) :
    ∃ k, parseargs s (n + 1) cmd argc i = .ok (cmd, k) ∧ ahead s k = ahead s i ∧
      (i ≤ s.length → k ≤ s.length) := by
  obtain ⟨k, hpeek, hahead, hk⟩ := peek_ends hs i
  cases hi : ahead s i with
  | nil =>
    obtain ⟨hret, hrest⟩ := gettoken_nil hs (hahead.trans hi)
    refine ⟨(gettoken s k).ps, ?_, hrest, fun hle => gettoken_le (hk hle)⟩
    rw [parseargs, hpeek, hi]
    exact (if_neg Bool.false_ne_true).trans (if_pos hret)
  | cons t ts =>
    refine ⟨k, ?_, hahead.trans hi, hk⟩
    rw [parseargs, hpeek, hi, List.head?_cons, any_some, h t (by rw [hi]; rfl)]
    rfl

theorem parseargs_word (argc : ℕ) (h : ahead s i = .word w :: ts) :
    ∃ a k, parseargs s (n + 1) cmd argc i = (if maxArgs ≤ argc + 1 then .error .tooManyArgs
        else parseredirs s n (cmd.addArg a) k >>= fun r => parseargs s n r.1 (argc + 1) r.2) ∧
      ahead s k = ts ∧ Cut s a ∧ text s a = w ∧ (i ≤ s.length → k ≤ s.length) := by
  obtain ⟨k, hpeek, hahead, hk⟩ := peek_ends hs i
  obtain ⟨hcode, hrest, hcut⟩ := gettoken_cons hs (hahead.trans h)
  obtain ⟨hcut, htext⟩ := hcut w rfl
  have hnul : (gettoken s k).ret ≠ nul := ne_of_eq_of_ne hcode (Token.code_ne_nul _)
  refine ⟨_, _, ?_, hrest, hcut, htext, fun hi => gettoken_le (hk hi)⟩
  rw [parseargs, hpeek, h, List.head?_cons, any_some]
  exact (if_neg Bool.false_ne_true).trans ((if_neg hnul).trans (if_neg (not_not_intro hcode)))

theorem parseargs_notWord (argc : ℕ) (h : ahead s i = t :: ts) (hends : t.ends = false)
    (hword : ∀ w, t ≠ .word w) : parseargs s (n + 1) cmd argc i = .error .notWord := by
  obtain ⟨k, hpeek, hahead, hk⟩ := peek_ends hs i
  obtain ⟨hcode, -⟩ := gettoken_cons hs (hahead.trans h)
  rw [parseargs, hpeek, h, List.head?_cons, any_some, hends]
  have hnul : (gettoken s k).ret ≠ nul := ne_of_eq_of_ne hcode (Token.code_ne_nul _)
  have hletter : (gettoken s k).ret ≠ 'a' := ne_of_eq_of_ne hcode (Token.code_ne_word hword)
  exact (if_neg Bool.false_ne_true).trans ((if_neg hnul).trans (if_pos hletter))

theorem parsebacks_stop (h : (ahead s i).head? ≠ some .amp) :
    ∃ k, parsebacks s (n + 1) cmd i = .ok (cmd, k) ∧ ahead s k = ahead s i ∧
      (i ≤ s.length → k ≤ s.length) := by
  obtain ⟨k, hpeek, hrest⟩ := peek_pass (c := '&') hs rfl (by decide) h
  refine ⟨k, ?_, hrest⟩
  rw [parsebacks, hpeek]
  rfl

theorem parsebacks_amp (h : ahead s i = .amp :: ts) :
    ∃ k, parsebacks s (n + 1) cmd i = parsebacks s n (.back cmd) k ∧ ahead s k = ts ∧
      (i ≤ s.length → k ≤ s.length) := by
  obtain ⟨k, hpeek, -, hrest, hk⟩ := peek_take (c := '&') hs rfl (by decide) h
  refine ⟨(gettoken s k).ps, ?_, hrest, fun hi => gettoken_le (hk hi)⟩
  rw [parsebacks, hpeek]
  rfl

end Step

end Xv6.Shell
