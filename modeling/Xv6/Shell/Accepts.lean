import Xv6.Shell.Complete
import Xv6.Shell.Sound

/-!
# The parser accepts its grammar

`nulterminate` stores a NUL behind each word of the tree. The words are longest runs of word
characters, so no NUL falls into another word, and the strings of the tree are its words.
-/

namespace Xv6.Shell

open List Nat

variable {cmd : Cmd Slice} {s : List Char} {w : Slice}

/-- The string at an offset of the memory of the line. -/
def cstring (buf : List Char) (q : ℕ) : List Char :=
  (buf.drop q).takeWhile fun c => decide (c ≠ nul)

theorem nulterminate_eq (cmd : Cmd Slice) (buf : List Char) :
    nulterminate cmd buf = cmd.words.foldl (fun buf w => buf.set w.eq nul) buf := by
  induction cmd generalizing buf with
  | exec argv => rfl
  | redir cmd file mode fd ih => rw [nulterminate, ih, Cmd.words, foldl_append]; rfl
  | pipe left right ihl ihr => rw [nulterminate, ihl, ihr, Cmd.words, foldl_append]
  | list left right ihl ihr => rw [nulterminate, ihl, ihr, Cmd.words, foldl_append]
  | back cmd ih => exact ih buf

theorem getElem?_foldl_set (ws : List Slice) (buf : List Char) {k : ℕ} (hk : k < buf.length) :
    (ws.foldl (fun buf w => buf.set w.eq nul) buf)[k]? =
      if ∃ w ∈ ws, w.eq = k then some nul else buf[k]? := by
  induction ws generalizing buf with
  | nil => simp
  | cons w ws ih =>
    rw [foldl_cons, ih (buf.set w.eq nul) (by rwa [length_set]), List.getElem?_set]
    by_cases hw : w.eq = k
    · simp [hw, hk]
    · simp [hw]

theorem text_getElem? (s : List Char) (w : Slice) (k : ℕ) :
    (text s w)[k]? = if k < w.eq - w.q then s[w.q + k]? else none := by
  rw [text, List.getElem?_take, List.getElem?_drop]

theorem Cut.isWord_charAt (h : Cut s w) {k : ℕ} (hq : w.q ≤ k)
    (hk : k < w.eq) : isWord (charAt s k) = true := by
  have hlt : k < s.length := hk.trans_le h.end_le
  refine h.word _ (mem_of_getElem? (i := k - w.q) ?_)
  rw [text_getElem?, if_pos (Nat.sub_lt_sub_right hq hk), Nat.add_sub_cancel' hq,
    List.getElem?_eq_getElem hlt, charAt_of_drop (drop_eq_getElem_cons hlt)]

theorem take_foldl_set {ws : List Slice} (hws : ∀ w ∈ ws, Cut s w) (hw : w ∈ ws) :
    text (ws.foldl (fun buf w => buf.set w.eq nul) (s ++ [nul])) w = text s w := by
  refine ext_getElem? fun k => ?_
  rw [text_getElem?, text_getElem?]
  split
  next hk =>
    have hcut := hws w hw
    have hlt : w.q + k < w.eq := add_lt_of_lt_sub' hk
    have hlen : w.q + k < s.length := hlt.trans_le hcut.end_le
    have hword := hcut.isWord_charAt (le_add_right w.q k) hlt
    have hnone : ¬∃ w' ∈ ws, w'.eq = w.q + k := by
      rintro ⟨w', hw', heq⟩
      have hstop := (hws w' hw').stop
      rw [heq] at hstop
      exact Bool.false_ne_true ((hstop hlen).symm.trans hword)
    rw [getElem?_foldl_set ws _ (by rw [length_append]; omega), if_neg hnone,
      List.getElem?_append_left hlen]
  next => rfl

/-- After `nulterminate` a word of the tree is a string. -/
theorem cstring_foldl_set (hs : nul ∉ s) {ws : List Slice} (hws : ∀ w ∈ ws, Cut s w) (hw : w ∈ ws) :
    cstring (ws.foldl (fun buf w => buf.set w.eq nul) (s ++ [nul])) w.q = text s w := by
  have hcut := hws w hw
  have htext := take_foldl_set hws hw
  have hnul : (ws.foldl (fun buf w => buf.set w.eq nul) (s ++ [nul]))[w.eq]? = some nul := by
    have hlt : w.eq < (s ++ [nul]).length := by
      rw [length_append]
      exact Nat.lt_succ_of_le hcut.end_le
    rw [getElem?_foldl_set ws _ hlt, if_pos ⟨w, hw, rfl⟩]
  generalize ws.foldl (fun buf w => buf.set w.eq nul) (s ++ [nul]) = buf at *
  obtain ⟨hlt, hget⟩ := List.getElem?_eq_some_iff.1 hnul
  have hsplit : buf.drop w.q = text s w ++ nul :: buf.drop (w.eq + 1) := by
    rw [← htext, text, ← hget, ← drop_eq_getElem_cons hlt]
    have hdrop : buf.drop w.eq = (buf.drop w.q).drop (w.eq - w.q) := by
      rw [drop_drop, Nat.add_sub_cancel' hcut.start_le]
    rw [hdrop, take_append_drop]
  have hchars : ∀ c ∈ text s w, decide (c ≠ nul) = true := by
    intro c hc
    refine decide_eq_true ?_
    rintro rfl
    exact hs (mem_of_mem_drop (mem_of_mem_take hc))
  rw [cstring, hsplit, takeWhile_append_of_pos hchars, takeWhile_cons_of_neg (by simp), append_nil]

section Accepts

variable {s : List Char}

/-- The line has no more tokens than characters. -/
theorem length_lexFrom_le (w l : List Char) :
    (lexFrom w l).length ≤ (flush w).length + l.length := by
  induction w, l using lexFrom.induct with
  | case1 w =>
    exact le_add_right _ _
  | case2 w l ih =>
    rw [flush_nil, length_nil] at ih
    rw [lexFrom, length_append, length_cons, length_cons, length_cons]
    omega
  | case3 w c l hgt hspace ih =>
    rw [flush_nil, length_nil] at ih
    rw [lexFrom_space hspace, length_append, length_cons]
    omega
  | case4 w c l hgt hspace t hop ih =>
    rw [flush_nil, length_nil] at ih
    rw [lexFrom_operator (Bool.eq_false_iff.2 hspace) hop hgt, length_append,
      length_cons, length_cons]
    omega
  | case5 w c l hgt hspace hop ih =>
    have hflush : (flush (w ++ [c])).length ≤ 1 := by
      rw [flush]
      split <;> simp
    rw [lexFrom_word (isWord_iff.2 ⟨Bool.eq_false_iff.2 hspace, hop⟩), length_cons]
    omega

theorem length_ahead_zero_le : (ahead s 0).length ≤ s.length := by
  have hlex := length_lexFrom_le [] s
  rw [flush_nil, length_nil, Nat.zero_add] at hlex
  exact hlex

theorem peek_eq_length (hs : nul ∉ s) {j : ℕ} (hj : j ≤ s.length) :
    (peek s j []).2 = s.length ↔ ahead s j = [] := by
  constructor
  · intro h
    rw [← peek_ahead (i := j), h, ahead, drop_length]
    rfl
  · intro h
    exact (peek_le hj).antisymm (drop_eq_nil_iff.1 (drop_skip_nil hs h))

theorem parsecmd_eq {j : ℕ} (h : parseline s (4 * s.length + 5) 0 = .ok (cmd, j)) :
    parsecmd s = if (peek s j []).2 ≠ s.length then .error .leftovers
      else .ok (cmd, nulterminate cmd (s ++ [nul])) := by
  rw [parsecmd, h]
  rfl

section

variable (hs : nul ∉ s)
include hs

theorem parseline_reads : Returns (Reads s .line 0) (parseline s (4 * s.length + 5) 0) := by
  have hlen := length_ahead_zero_le (s := s)
  exact (sound hs _).line 0 (zero_le _) (by omega)

theorem parsecmd_ne_endless : parsecmd s ≠ .error .endless := by
  have hreads := parseline_reads hs
  cases hparse : parseline s (4 * s.length + 5) 0 with
  | error p =>
    rw [hparse] at hreads
    rw [parsecmd, hparse]
    exact fun h => hreads (Except.error.inj h)
  | ok r =>
    rw [parsecmd_eq hparse]
    split <;> simp

/-- `parsecmd` returns what `parseline` has read, when no token is left. -/
theorem parsecmd_eq_ok_iff {buf : List Char} :
    parsecmd s = .ok (cmd, buf) ↔ ∃ j, parseline s (4 * s.length + 5) 0 = .ok (cmd, j) ∧
      Reads s .line 0 cmd j ∧ ahead s j = [] ∧ buf = nulterminate cmd (s ++ [nul]) := by
  have hreads := parseline_reads hs
  cases hparse : parseline s (4 * s.length + 5) 0 with
  | error p =>
    rw [parsecmd, hparse]
    constructor
    · intro h
      cases h
    · rintro ⟨j, h, -⟩
      cases h
  | ok r =>
    obtain ⟨cmd', j⟩ := r
    rw [hparse] at hreads
    rw [parsecmd_eq hparse, ite_not]
    constructor
    · intro h
      split at h
      next hpeek =>
        cases h
        exact ⟨j, rfl, hreads, (peek_eq_length hs hreads.le).1 hpeek, rfl⟩
      next => cases h
    · rintro ⟨j', ⟨rfl, rfl⟩, -, hj, rfl⟩
      exact if_pos ((peek_eq_length hs hreads.le).2 hj)

theorem map_cstring_nulterminate (hcut : ∀ w ∈ cmd.words, Cut s w) :
    (cmd.map fun w => cstring (nulterminate cmd (s ++ [nul])) w.q) = cmd.map (text s) := by
  refine Cmd.map_congr fun w hw => ?_
  rw [nulterminate_eq]
  exact cstring_foldl_set hs hcut hw

theorem parsecmd_derives {buf : List Char} (h : parsecmd s = .ok (cmd, buf)) :
    Derives .line (lex s) (cmd.map fun w => cstring buf w.q) := by
  obtain ⟨j, -, ⟨-, ⟨us, hus, hderives⟩, hcut⟩, hj, rfl⟩ := (parsecmd_eq_ok_iff hs).1 h
  have hlex : lex s = us := by
    rw [hj, append_nil] at hus
    exact hus
  rw [map_cstring_nulterminate hs hcut, hlex]
  exact hderives

theorem parsecmd_of_derives {t : Cmd (List Char)} (h : Derives .line (lex s) t) :
    ∃ cmd buf, parsecmd s = .ok (cmd, buf) ∧ (cmd.map fun w => cstring buf w.q) = t := by
  have hlen : (lex s).length ≤ s.length := length_ahead_zero_le
  have hsteps : 4 * (lex s).length + 4 ≤ 4 * s.length + 5 := by
    omega
  obtain ⟨cmd, j, hparse, hmap, hj⟩ := takes hs h (i := 0) (append_nil _).symm
    (fun u hu => absurd hu (Option.not_mem_none u)) hsteps
  have hreads : Reads s .line 0 cmd j := by
    have hreturns := parseline_reads hs
    rw [show parseline s (4 * s.length + 5) 0 = .ok (cmd, j) from hparse] at hreturns
    exact hreturns
  refine ⟨cmd, _, (parsecmd_eq_ok_iff hs).2 ⟨j, hparse, hreads, hj, rfl⟩, ?_⟩
  rw [map_cstring_nulterminate hs hreads.cut, hmap]

end

/-- The shell parser accepts exactly its grammar: it returns on a line if and only if the tokens
of the line derive from the grammar, the strings of its tree then make up the tree that the
derivation denotes, and it does not run for ever. -/
theorem parsecmd_accepts_grammar (s : List Char) (hs : nul ∉ s) :
    ((∃ cmd buf, parsecmd s = .ok (cmd, buf)) ↔ ∃ t, Derives .line (lex s) t) ∧
    (∀ cmd buf t, parsecmd s = .ok (cmd, buf) →
      (Derives .line (lex s) t ↔ (cmd.map fun w => cstring buf w.q) = t)) ∧
    parsecmd s ≠ .error .endless := by
  refine ⟨⟨?_, ?_⟩, ?_, parsecmd_ne_endless hs⟩
  · rintro ⟨cmd, buf, h⟩
    exact ⟨_, parsecmd_derives hs h⟩
  · rintro ⟨t, ht⟩
    obtain ⟨cmd, buf, h, -⟩ := parsecmd_of_derives hs ht
    exact ⟨cmd, buf, h⟩
  · intro cmd buf t h
    constructor
    · intro ht
      obtain ⟨cmd', buf', h', hmap⟩ := parsecmd_of_derives hs ht
      obtain ⟨rfl, rfl⟩ := Prod.mk.inj (Except.ok.inj (h.symm.trans h'))
      exact hmap
    · rintro rfl
      exact parsecmd_derives hs h

theorem parsecmd_accepts_grammar_line :
    Derives .line (lex "a <b | (c >>d &; e) &".toList)
      (.back (.pipe (.redir (.exec ["a".toList]) "b".toList oRdonly 0)
        (.list (.back (.redir (.exec ["c".toList]) "d".toList oWronlyCreate 1))
          (.exec ["e".toList])))) := by
  have hrun : parsecmd "a <b | (c >>d &; e) &".toList = .ok
      (.back (.pipe (.redir (.exec [⟨0, 1⟩]) ⟨3, 4⟩ oRdonly 0)
        (.list (.back (.redir (.exec [⟨8, 9⟩]) ⟨12, 13⟩ oWronlyCreate 1))
          (.exec [⟨17, 18⟩]))), "a\x00<b\x00| (c\x00>>d\x00&; e\x00 &\x00".toList) := by
    decide +kernel
  exact ((parsecmd_accepts_grammar _ (by decide)).2.1 _ _ _ hrun).2 (by decide +kernel)

/-- In-place termination is harmless: the NUL of a word is stored in the memory of the line and
outside of every word, and each word of the tree is then the string at its offset. -/
theorem nulterminate_harmless (s : List Char) (hs : nul ∉ s) {buf : List Char}
    (h : parsecmd s = .ok (cmd, buf)) :
    buf = nulterminate cmd (s ++ [nul]) ∧ ∀ w ∈ cmd.words, cstring buf w.q = text s w ∧
      w.eq < (s ++ [nul]).length ∧ ∀ w' ∈ cmd.words, ¬(w'.q ≤ w.eq ∧ w.eq < w'.eq) := by
  obtain ⟨j, -, hreads, -, rfl⟩ := (parsecmd_eq_ok_iff hs).1 h
  refine ⟨rfl, fun w hw => ⟨?_, ?_, ?_⟩⟩
  · rw [nulterminate_eq]
    exact cstring_foldl_set hs hreads.cut hw
  · rw [length_append]
    exact lt_succ_of_le (hreads.cut w hw).end_le
  · rintro w' hw' ⟨hq, heq⟩
    have hcut := hreads.cut w' hw'
    have hstop := (hreads.cut w hw).stop (heq.trans_le hcut.end_le)
    exact Bool.false_ne_true (hstop.symm.trans (hcut.isWord_charAt hq heq))

/-- The word `a` ends where the operator begins. -/
theorem nulterminate_harmless_adjacent :
    ∃ buf, parsecmd "a>b|c".toList = .ok
        (.pipe (.redir (.exec [⟨0, 1⟩]) ⟨2, 3⟩ oWronlyCreate 1) (.exec [⟨4, 5⟩]), buf) ∧
      cstring buf 0 = "a".toList ∧ cstring buf 2 = "b".toList := by
  have hrun : parsecmd "a>b|c".toList = .ok
      (.pipe (.redir (.exec [⟨0, 1⟩]) ⟨2, 3⟩ oWronlyCreate 1) (.exec [⟨4, 5⟩]),
        "a\x00b\x00c\x00".toList) := by decide +kernel
  obtain ⟨-, hwords⟩ := nulterminate_harmless _ (by decide) hrun
  exact ⟨_, hrun, (hwords ⟨0, 1⟩ (by decide)).1, (hwords ⟨2, 3⟩ (by decide)).1⟩

end Accepts

end Xv6.Shell
