import Mathlib.Data.List.TakeWhile
import Xv6.Shell.Grammar

/-!
# The parser reads tokens

The functions of the parser see a line only through `peek` and `gettoken`. At each offset
there is a list of tokens ahead; `peek` answers for the first one and passes over whitespace
only, `gettoken` returns its code and leaves the others.
-/

namespace Xv6.Shell

open List Bool

variable {t : Token} {cs : List Char}

def ahead (s : List Char) (i : ℕ) : List Token := lex (s.drop i)

def text (s : List Char) (w : Slice) : List Char := (s.drop w.q).take (w.eq - w.q)

/-- A slice is a longest run of word characters. -/
structure Cut (s : List Char) (w : Slice) : Prop where
  start_le : w.q ≤ w.eq
  end_le : w.eq ≤ s.length
  word : ∀ c ∈ text s w, isWord c = true
  stop : w.eq < s.length → isWord (charAt s w.eq) = false

namespace Token

def code : Token → Char
  | .word _ => 'a'
  | .lt => '<'
  | .gt => '>'
  | .gtgt => '+'
  | .pipe => '|'
  | .amp => '&'
  | .semi => ';'
  | .lparen => '('
  | .rparen => ')'

theorem code_ne_nul (t : Token) : t.code ≠ nul := by
  cases t with
  | word w => exact (by decide : 'a' ≠ nul)
  | _ => decide

theorem code_ne_word (h : ∀ w, t ≠ .word w) : t.code ≠ 'a' := by
  cases t with
  | word w => exact absurd rfl (h w)
  | _ => decide

/-- The first character of an operator. -/
def first : Token → Char
  | .word _ => nul
  | .lt => '<'
  | .gt => '>'
  | .gtgt => '>'
  | .pipe => '|'
  | .amp => '&'
  | .semi => ';'
  | .lparen => '('
  | .rparen => ')'

end Token

section Scan

variable {p : Char → Bool} {s l : List Char} {i : ℕ} {c : Char}

theorem charAt_of_drop (h : s.drop i = c :: l) : charAt s i = c := by
  have hget : s[i]? = some c := by
    rw [← List.head?_drop, h, List.head?_cons]
  rw [charAt, getD_eq_getElem?_getD, hget, Option.getD_some]

theorem charAt_of_drop_nil (h : s.drop i = []) : charAt s i = nul := by
  rw [charAt, getD_eq_getElem?_getD, List.getElem?_eq_none (drop_eq_nil_iff.1 h), Option.getD_none]

theorem drop_succ_of_drop (h : s.drop i = c :: l) : s.drop (i + 1) = l := by
  rw [← drop_drop, h, drop_one, tail_cons]

theorem lt_length_of_drop (h : s.drop i = c :: l) : i < s.length := by
  refine Nat.lt_of_not_le fun hle => ?_
  rw [drop_eq_nil_of_le hle] at h
  exact cons_ne_nil c l h.symm

theorem mem_of_drop (h : s.drop i = c :: l) : c ∈ s :=
  mem_of_mem_drop (h ▸ mem_cons_self)

theorem scanLoop_eq (n : ℕ) (hn : s.length - i ≤ n) :
    scanLoop p s n i = i + ((s.drop i).takeWhile p).length := by
  induction n generalizing i with
  | zero =>
    rw [drop_eq_nil_of_le (Nat.sub_eq_zero_iff_le.1 (Nat.le_zero.1 hn))]
    rfl
  | succ n ih =>
    rw [scanLoop]
    cases hdrop : s.drop i with
    | nil =>
      rw [if_neg fun h => Nat.not_lt.2 (drop_eq_nil_iff.1 hdrop) h.1]
      rfl
    | cons c l =>
      rw [charAt_of_drop hdrop, takeWhile_cons]
      by_cases hp : p c = true
      · rw [if_pos ⟨lt_length_of_drop hdrop, hp⟩, if_pos hp, ih (by omega),
          drop_succ_of_drop hdrop, length_cons]
        omega
      · rw [if_neg fun h => hp h.2, if_neg hp]
        rfl

theorem scan_eq : scan p s i = i + ((s.drop i).takeWhile p).length :=
  scanLoop_eq _ le_rfl

theorem drop_scan : s.drop (scan p s i) = (s.drop i).dropWhile p := by
  have hsplit : (s.drop i).takeWhile p ++ (s.drop i).dropWhile p = s.drop i :=
    takeWhile_append_dropWhile
  rw [scan_eq, ← drop_drop]
  exact (congrArg (List.drop _) hsplit).symm.trans drop_left

theorem scan_le (hi : i ≤ s.length) : scan p s i ≤ s.length := by
  have hle : ((s.drop i).takeWhile p).length ≤ (s.drop i).length :=
    (takeWhile_sublist p).length_le
  rw [length_drop] at hle
  rw [scan_eq]
  omega

theorem lt_length_of_charAt (h : charAt s i ≠ nul) : i < s.length := by
  refine Nat.lt_of_not_le fun hle => h ?_
  exact charAt_of_drop_nil (drop_eq_nil_of_le hle)

theorem not_dropWhile_head {l' : List Char} (h : l'.dropWhile p = c :: l) : p c = false := by
  have hhead := List.head?_dropWhile_not p l'
  rw [h] at hhead
  exact hhead

end Scan

section Lex

variable {w l : List Char} {c : Char}

theorem isWord_iff : isWord c = true ↔ isSpace c = false ∧ operator c = none := by
  rw [isWord, isSpace, and_eq_true, decide_eq_true_iff, decide_eq_true_iff,
    decide_eq_false_iff_not]
  refine and_congr_right fun _ => ?_
  unfold operator
  split <;> simp_all [symbols]

theorem lexFrom_space (hc : isSpace c = true) : lexFrom w (c :: l) = flush w ++ lexFrom [] l := by
  rw [lexFrom, if_pos hc]
  rintro l' rfl
  exact absurd hc (by decide)

theorem lexFrom_word (hc : isWord c = true) : lexFrom w (c :: l) = lexFrom (w ++ [c]) l := by
  obtain ⟨hspace, hop⟩ := isWord_iff.1 hc
  rw [lexFrom, if_neg (by rw [hspace]; exact false_ne_true), hop]
  rintro l' rfl
  exact absurd hc (by decide)

theorem lexFrom_append {u : List Char} (hu : ∀ c ∈ u, isWord c = true) :
    lexFrom w (u ++ l) = lexFrom (w ++ u) l := by
  induction u generalizing w with
  | nil => rw [nil_append, append_nil]
  | cons c u ih =>
    rw [cons_append, lexFrom_word (hu c mem_cons_self),
      ih fun c hc => hu c (mem_cons_of_mem _ hc), append_assoc, singleton_append]

theorem lexFrom_operator (hspace : isSpace c = false) (hc : operator c = some t)
    (hl : ∀ l', c = '>' → l = '>' :: l' → False) :
    lexFrom w (c :: l) = flush w ++ t :: lexFrom [] l := by
  rw [lexFrom, if_neg (by rw [hspace]; exact false_ne_true), hc]
  exact hl

theorem head_cases (l : List Char) (hc : isSpace c = false) :
    isWord c = true ∨ (∃ l', c = '>' ∧ l = '>' :: l') ∨
      ∃ t, operator c = some t ∧ ∀ l', c = '>' → l = '>' :: l' → False := by
  cases hop : operator c with
  | none => exact .inl (isWord_iff.2 ⟨hc, hop⟩)
  | some t =>
    by_cases hgtgt : ∃ l', c = '>' ∧ l = '>' :: l'
    · exact .inr (.inl hgtgt)
    · exact .inr (.inr ⟨t, rfl, fun l' h h' => hgtgt ⟨l', h, h'⟩⟩)

theorem flush_nil : flush [] = [] := if_pos rfl

theorem lexFrom_flush (hl : ∀ c l', l = c :: l' → isWord c = false) :
    lexFrom w l = flush w ++ lexFrom [] l := by
  cases l with
  | nil => rw [lexFrom, lexFrom, flush_nil, append_nil]
  | cons c l =>
    have hword : isWord c = false := hl c l rfl
    cases hspace : isSpace c with
    | true => rw [lexFrom_space hspace, lexFrom_space hspace, flush_nil, nil_append]
    | false =>
      obtain hc | ⟨l', rfl, rfl⟩ | ⟨t, hop, hne⟩ := head_cases l hspace
      · exact absurd (hword.symm.trans hc) false_ne_true
      · rw [lexFrom, lexFrom, flush_nil, nil_append]
      · rw [lexFrom_operator hspace hop hne, lexFrom_operator hspace hop hne, flush_nil, nil_append]

theorem lex_dropWhile : lex (l.dropWhile isSpace) = lex l := by
  induction l with
  | nil => rfl
  | cons c l ih =>
    rw [dropWhile_cons]
    split
    next hc => rw [ih, lex, lex, lexFrom_space hc, flush_nil, nil_append]
    next => rfl

end Lex

section Tokens

variable {s l : List Char} {i : ℕ} {c : Char}

theorem ahead_scan : ahead s (scan isSpace s i) = ahead s i := by
  rw [ahead, drop_scan, lex_dropWhile, ahead]

theorem tokenAt_operator (h : s.drop i = c :: l) (hop : operator c = some t)
    (hl : ∀ l', c = '>' → l = '>' :: l' → False) : tokenAt s i = (t.code, i + 1) := by
  have hchar := charAt_of_drop h
  have hnext : c = '>' → charAt s (i + 1) ≠ '>' := by
    intro hgt hnext
    have hdrop := drop_succ_of_drop h
    cases l with
    | nil =>
      rw [charAt_of_drop_nil hdrop] at hnext
      exact absurd hnext (by decide)
    | cons c' l' =>
      rw [charAt_of_drop hdrop] at hnext
      exact hl l' hgt (hnext ▸ rfl)
  unfold operator at hop
  split at hop
  case h_2 =>
    cases hop
    rw [tokenAt, hchar]
    exact if_neg (hnext rfl)
  all_goals
    cases hop <;> simp [tokenAt, hchar, Token.code]

theorem tokenAt_word (hc : isWord (charAt s i) = true) (hnul : charAt s i ≠ nul) :
    tokenAt s i = ('a', scan isWord s i) := by
  unfold tokenAt
  split
  case h_1 h => exact absurd h hnul
  case h_9 => rfl
  all_goals
    next h =>
      rw [h] at hc
      exact absurd hc (by decide)

theorem tokenAt_le (hi : i ≤ s.length) : (tokenAt s i).2 ≤ s.length := by
  have hsymbol : ∀ {c}, charAt s i = c → c ≠ nul → i + 1 ≤ s.length := by
    rintro c rfl hc
    exact lt_length_of_charAt hc
  unfold tokenAt
  split
  case h_1 => exact hi
  case h_8 h =>
    split
    next hnext => exact lt_length_of_charAt (hnext ▸ by decide)
    next => exact hsymbol h (by decide)
  case h_9 => exact scan_le hi
  all_goals
    next h => exact hsymbol h (by decide)

theorem gettoken_le (hi : i ≤ s.length) : (gettoken s i).ps ≤ s.length :=
  scan_le (tokenAt_le (scan_le hi))

theorem peek_le (hi : i ≤ s.length) : (peek s i cs).2 ≤ s.length :=
  scan_le hi

theorem cut_scan (hi : i ≤ s.length) : Cut s ⟨i, scan isWord s i⟩ ∧
    text s ⟨i, scan isWord s i⟩ = (s.drop i).takeWhile isWord := by
  have htext : text s ⟨i, scan isWord s i⟩ = (s.drop i).takeWhile isWord := by
    have hsplit : (s.drop i).takeWhile isWord ++ (s.drop i).dropWhile isWord = s.drop i :=
      takeWhile_append_dropWhile
    rw [text, scan_eq, Nat.add_sub_cancel_left]
    exact (congrArg (List.take _) hsplit).symm.trans take_left
  refine ⟨⟨?_, scan_le hi, ?_, ?_⟩, htext⟩
  · rw [scan_eq]
    exact Nat.le_add_right _ _
  · intro c hc
    rw [htext] at hc
    exact mem_takeWhile_imp hc
  · intro hlt
    have hdrop := drop_scan (p := isWord) (s := s) (i := i)
    rw [drop_eq_getElem_cons hlt] at hdrop
    rw [charAt_of_drop (drop_eq_getElem_cons hlt)]
    exact not_dropWhile_head hdrop.symm

theorem operator_ne_word (c : Char) (w : List Char) : operator c ≠ some (.word w) := by
  unfold operator
  split <;> simp

theorem operator_first (hop : operator c = some t) : t.first = c ∧ c ∈ symbols := by
  unfold operator at hop
  split at hop <;> cases hop <;> exact ⟨rfl, by decide⟩

theorem eq_of_operator_first {t u : Token} (hu : u.first ≠ '>') (hop : operator u.first = some t) :
    u = t := by
  cases u <;> first | exact absurd rfl hu | exact Option.some.inj hop | cases hop

theorem ahead_word (h : s.drop i = c :: l) (hc : isWord c = true) :
    ahead s i = .word ((s.drop i).takeWhile isWord) :: ahead s (scan isWord s i) := by
  have hne : (s.drop i).takeWhile isWord ≠ [] := by
    rw [h, takeWhile_cons_of_pos hc]
    exact cons_ne_nil _ _
  have hsplit : (s.drop i).takeWhile isWord ++ (s.drop i).dropWhile isWord = s.drop i :=
    takeWhile_append_dropWhile
  calc
    ahead s i = lexFrom [] ((s.drop i).takeWhile isWord ++ (s.drop i).dropWhile isWord) := by
        rw [hsplit, ahead, lex]
    _ = lexFrom ((s.drop i).takeWhile isWord) ((s.drop i).dropWhile isWord) :=
        lexFrom_append fun c hc => mem_takeWhile_imp hc
    _ = flush ((s.drop i).takeWhile isWord) ++ lexFrom [] ((s.drop i).dropWhile isWord) :=
        lexFrom_flush fun c l hcons => not_dropWhile_head hcons
    _ = .word ((s.drop i).takeWhile isWord) :: ahead s (scan isWord s i) := by
        rw [flush, if_neg hne, ahead, drop_scan, lex]
        rfl

/-- `tokenAt` reads the first token, where no whitespace is before it. -/
theorem tokenAt_spec (hs : nul ∉ s) (h : s.drop i = c :: l) (hspace : isSpace c = false) :
    ∃ t, ahead s i = t :: ahead s (tokenAt s i).2 ∧ (tokenAt s i).1 = t.code ∧
      t.first = (if c ∈ symbols then c else nul) ∧
      ∀ w, t = .word w → Cut s ⟨i, (tokenAt s i).2⟩ ∧ text s ⟨i, (tokenAt s i).2⟩ = w := by
  obtain hc | ⟨l', rfl, rfl⟩ | ⟨t, hop, hne⟩ := head_cases l hspace
  · have hchar := charAt_of_drop h
    have hnul : charAt s i ≠ nul := fun h' => hs (h' ▸ hchar ▸ mem_of_drop h)
    obtain ⟨hcut, htext⟩ := cut_scan (lt_length_of_drop h).le
    rw [tokenAt_word (hchar ▸ hc) hnul]
    refine ⟨.word (text s ⟨i, scan isWord s i⟩), ?_, rfl, (if_neg ?_).symm, ?_⟩
    · rw [htext]
      exact ahead_word h hc
    · rw [isWord, and_eq_true] at hc
      exact of_decide_eq_true hc.2
    · rintro w ⟨rfl⟩
      exact ⟨hcut, rfl⟩
  · have htoken : tokenAt s i = ('+', i + 2) := by
      rw [tokenAt, charAt_of_drop h]
      exact if_pos (charAt_of_drop (drop_succ_of_drop h))
    have hrest : s.drop (i + 2) = l' := drop_succ_of_drop (drop_succ_of_drop h)
    refine ⟨.gtgt, ?_, congrArg Prod.fst htoken, rfl, fun w hw => absurd hw Token.noConfusion⟩
    rw [htoken, ahead, ahead, h, hrest, lex, lexFrom, flush_nil]
    rfl
  · have htoken := tokenAt_operator h hop hne
    obtain ⟨hfirst, hsymbol⟩ := operator_first hop
    refine ⟨t, ?_, congrArg Prod.fst htoken, hfirst.trans (if_pos hsymbol).symm, ?_⟩
    · rw [htoken, ahead, ahead, h, drop_succ_of_drop h, lex, lexFrom_operator hspace hop hne,
        flush_nil]
      rfl
    · rintro w rfl
      exact absurd hop (operator_ne_word c w)

variable (s i) in
theorem drop_skip : s.drop (scan isSpace s i) = [] ∨
    ∃ c l, s.drop (scan isSpace s i) = c :: l ∧ isSpace c = false := by
  cases hdrop : s.drop (scan isSpace s i) with
  | nil => exact .inl rfl
  | cons c l =>
    rw [drop_scan] at hdrop
    exact .inr ⟨c, l, rfl, not_dropWhile_head hdrop⟩

theorem drop_skip_nil (hs : nul ∉ s) (h : ahead s i = []) : s.drop (scan isSpace s i) = [] := by
  obtain hnil | ⟨c, l, hcons, hspace⟩ := drop_skip s i
  · exact hnil
  · obtain ⟨t, ht, -⟩ := tokenAt_spec hs hcons hspace
    rw [ahead_scan, h] at ht
    exact absurd ht.symm (cons_ne_nil _ _)

theorem gettoken_nil (hs : nul ∉ s) (h : ahead s i = []) :
    (gettoken s i).ret = nul ∧ ahead s (gettoken s i).ps = [] := by
  have hdrop := drop_skip_nil hs h
  have htoken : tokenAt s (scan isSpace s i) = (nul, scan isSpace s i) := by
    rw [tokenAt, charAt_of_drop_nil hdrop]
    rfl
  rw [gettoken, htoken]
  exact ⟨rfl, ahead_scan.trans (ahead_scan.trans h)⟩

theorem gettoken_cons (hs : nul ∉ s) {ts : List Token} (h : ahead s i = t :: ts) :
    (gettoken s i).ret = t.code ∧ ahead s (gettoken s i).ps = ts ∧
      ∀ w, t = .word w → Cut s ⟨(gettoken s i).q, (gettoken s i).eq⟩ ∧
        text s ⟨(gettoken s i).q, (gettoken s i).eq⟩ = w := by
  obtain hnil | ⟨c, l, hcons, hspace⟩ := drop_skip s i
  · have hempty : ahead s i = [] := by
      rw [← ahead_scan, ahead, hnil]
      rfl
    exact absurd (h.symm.trans hempty) (cons_ne_nil _ _)
  · obtain ⟨t', hahead, hcode, -, hword⟩ := tokenAt_spec hs hcons hspace
    rw [ahead_scan, h] at hahead
    obtain ⟨rfl, rfl⟩ := List.cons.inj hahead
    exact ⟨hcode, ahead_scan, hword⟩

theorem peek_ahead : ahead s (peek s i cs).2 = ahead s i :=
  ahead_scan

theorem peek_spec (hs : nul ∉ s) (hcs : ∀ c ∈ cs, c ∈ symbols) :
    (peek s i cs).1 = (ahead s i).head?.any fun t => decide (t.first ∈ cs) := by
  rw [← ahead_scan]
  obtain hnil | ⟨c, l, hcons, hspace⟩ := drop_skip s i
  · rw [ahead, hnil, peek, charAt_of_drop_nil hnil]
    rfl
  · obtain ⟨t, hahead, -, hfirst, -⟩ := tokenAt_spec hs hcons hspace
    have hnul : c ≠ nul := fun h => hs (h ▸ mem_of_drop hcons)
    rw [hahead, List.head?_cons, Option.any_some, hfirst, peek, charAt_of_drop hcons,
      decide_eq_true hnul, Bool.true_and]
    by_cases hc : c ∈ symbols
    · rw [if_pos hc]
    · rw [if_neg hc, decide_eq_false fun h => hc (hcs c h),
        decide_eq_false fun h => absurd (hcs nul h) (by decide)]

end Tokens

end Xv6.Shell
