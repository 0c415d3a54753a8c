import Xv6.Grep.Match

/-!
# Reading lines in pieces

The loop of `grep`, over the pieces that `read` returns. What it keeps of a piece in `buf` is
the text behind the last newline; but when there is no newline at all it keeps nothing, not
even the beginning of a line whose end has yet to come. So its output is the lines that match
exactly when every piece up to the last newline has a newline in it.
-/

namespace Xv6.Grep

open List

/-- The text in front of the character and behind it. -/
def strchr (c : Char) : List Char → Option (List Char × List Char)
  | [] => none
  | x :: s =>
    if x = '\x00' then none
    else if x = c then some ([], s)
    else (strchr c s).map fun r => (x :: r.1, r.2)

/-- The loop over the lines in `buf`, of at most as many rounds as it has characters: what is
written, and the text at `p` in the end. -/
def scan (pattern : List Char) : ℕ → List Char → List Char × List Char
  | 0, p => ([], p)
  | n + 1, p =>
    match strchr '\n' p with
    | none => ([], p)
    | some (line, rest) =>
      let r := scan pattern n rest
      (if match' pattern line then line ++ '\n' :: r.1 else r.1, r.2)

def bufSize : ℕ := 1024

/-- One round of `grep`: what is written, and what stays in `buf`. -/
def grepRead (pattern buf piece : List Char) : List Char × List Char :=
  let text := buf ++ piece
  let r := scan pattern text.length text
  -- `p == buf`
  (r.1, if r.2.length = text.length then [] else r.2)

/-- `grep`, with the first of the characters of `buf` and the pieces still to be read. -/
def grep (pattern : List Char) : List Char → List (List Char) → List Char
  | _, [] => []
  | buf, piece :: pieces =>
    let r := grepRead pattern buf piece
    r.1 ++ grep pattern r.2 pieces

/-- A piece is not empty and not longer than `read` is asked for. -/
def Fits (pattern : List Char) : List Char → List (List Char) → Prop
  | _, [] => True
  | buf, piece :: pieces =>
    piece ≠ [] ∧ piece.length ≤ bufSize - buf.length - 1 ∧
      Fits pattern (grepRead pattern buf piece).2 pieces

section Lines

/-- The lines that end in a text, of which `line` is the beginning of the first. -/
def linesFrom (line : List Char) : List Char → List (List Char)
  | [] => []
  | c :: text => if c = '\n' then line :: linesFrom [] text else linesFrom (line ++ [c]) text

/-- The beginning of the line that does not end. -/
def restFrom (line : List Char) : List Char → List Char
  | [] => line
  | c :: text => if c = '\n' then restFrom [] text else restFrom (line ++ [c]) text

/-- The lines that match, each with its newline. -/
def output (pattern : List Char) (lines : List (List Char)) : List Char :=
  (lines.filter fun line => match' pattern line).flatMap (· ++ ['\n'])

variable {line text : List Char}

theorem linesFrom_append (line text text' : List Char) :
    linesFrom line (text ++ text') = linesFrom line text ++ linesFrom (restFrom line text) text' ∧
      restFrom line (text ++ text') = restFrom (restFrom line text) text' := by
  induction text generalizing line with
  | nil => exact ⟨rfl, rfl⟩
  | cons c text ih =>
    simp only [cons_append, linesFrom, restFrom]
    split_ifs
    · exact ⟨congrArg _ (ih []).1, (ih []).2⟩
    · exact ih _

theorem linesFrom_of_notMem (line : List Char) (h : '\n' ∉ text) :
    linesFrom line text = [] ∧ restFrom line text = line ++ text := by
  induction text generalizing line with
  | nil => simp [linesFrom, restFrom]
  | cons c text ih =>
    obtain ⟨hc, htext⟩ := not_or.1 (mt mem_cons.2 h)
    rw [linesFrom, restFrom, if_neg (Ne.symm hc), if_neg (Ne.symm hc)]
    simpa using ih (line ++ [c]) htext

theorem restFrom_of_mem (h : '\n' ∈ text) (line line' : List Char) :
    restFrom line text = restFrom line' text := by
  induction text generalizing line line' with
  | nil => cases h
  | cons c text ih =>
    rw [restFrom, restFrom]
    split_ifs with hc
    · rfl
    · exact ih (mem_of_ne_of_mem (Ne.symm hc) h) _ _

/-- The empty pattern matches every line, so all that ends is written. -/
theorem length_output_nil (line text : List Char) :
    (output [] (linesFrom line text)).length + (restFrom line text).length =
      line.length + text.length := by
  induction text generalizing line with
  | nil => simp [linesFrom, restFrom, output]
  | cons c text ih =>
    rw [linesFrom, restFrom]
    split_ifs
    · have hmatch : match' [] line = true := by cases line <;> rfl
      have hrest := ih []
      simp only [output, filter_cons, hmatch, if_true, flatMap_cons,
        length_append, length_cons, length_nil] at hrest ⊢
      omega
    · have hrest := ih (line ++ [c])
      rw [length_append, length_singleton] at hrest
      rw [length_cons]
      omega

theorem length_restFrom_lt (line : List Char) (h : '\n' ∈ text) :
    (restFrom line text).length < line.length + text.length := by
  induction text generalizing line with
  | nil => cases h
  | cons c text ih =>
    rw [restFrom, length_cons]
    split_ifs with hc
    · have hle := length_output_nil [] text
      rw [length_nil] at hle
      omega
    · have hlt := ih (line ++ [c]) (mem_of_ne_of_mem (Ne.symm hc) h)
      rw [length_append, length_singleton] at hlt
      omega

theorem mem_restFrom {x : Char} (h : x ∈ restFrom line text) :
    x ∈ line ∨ x ∈ text ∧ x ≠ '\n' := by
  induction text generalizing line with
  | nil => exact .inl h
  | cons c text ih =>
    rw [restFrom] at h
    split_ifs at h with hc
    · rcases ih h with hline | ⟨htext, hx⟩
      · cases hline
      · exact .inr ⟨mem_cons_of_mem _ htext, hx⟩
    · rcases ih h with hline | ⟨htext, hx⟩
      · rcases mem_append.1 hline with hline | hc'
        · exact .inl hline
        · rw [mem_singleton.1 hc']
          exact .inr ⟨mem_cons_self, hc⟩
      · exact .inr ⟨mem_cons_of_mem _ htext, hx⟩

theorem output_append (pattern : List Char) (lines lines' : List (List Char)) :
    output pattern (lines ++ lines') = output pattern lines ++ output pattern lines' := by
  rw [output, filter_append, flatMap_append]
  rfl

end Lines

theorem strchr_none {c : Char} {s : List Char} (hs : '\x00' ∉ s) (h : strchr c s = none) :
    c ∉ s := by
  induction s with
  | nil => exact not_mem_nil
  | cons x s ih =>
    obtain ⟨hx, hs⟩ := not_or.1 (mt mem_cons.2 hs)
    rw [strchr, if_neg (Ne.symm hx)] at h
    split_ifs at h with hc
    exact mt mem_cons.1 (not_or.2 ⟨Ne.symm hc, ih hs (Option.map_eq_none_iff.1 h)⟩)

theorem strchr_some {c : Char} {s line rest : List Char} (h : strchr c s = some (line, rest)) :
    s = line ++ c :: rest ∧ c ∉ line := by
  induction s generalizing line with
  | nil => cases h
  | cons x s ih =>
    rw [strchr] at h
    split_ifs at h with hnul hc
    · cases h
      exact ⟨by rw [hc]; rfl, not_mem_nil⟩
    · obtain ⟨⟨l, r⟩, hr, heq⟩ := Option.map_eq_some_iff.1 h
      cases heq
      obtain ⟨rfl, hl⟩ := ih hr
      exact ⟨rfl, mt mem_cons.1 (not_or.2 ⟨Ne.symm hc, hl⟩)⟩

theorem scan_eq (pattern : List Char) {n : ℕ} {text : List Char} (hn : text.length ≤ n)
    (hnul : '\x00' ∉ text) :
    scan pattern n text = (output pattern (linesFrom [] text), restFrom [] text) := by
  induction n generalizing text with
  | zero =>
    obtain rfl := length_eq_zero_iff.1 (Nat.le_zero.1 hn)
    rfl
  | succ n ih =>
    rw [scan]
    cases hq : strchr '\n' text with
    | none =>
      obtain ⟨hlines, hrest⟩ := linesFrom_of_notMem [] (strchr_none hnul hq)
      rw [hlines, hrest]
      rfl
    | some r =>
      obtain ⟨line, rest⟩ := r
      obtain ⟨rfl, hline⟩ := strchr_some hq
      obtain ⟨hlines, hrest⟩ := linesFrom_of_notMem [] hline
      rw [length_append, length_cons] at hn
      have hrestlen : rest.length ≤ n := by omega
      have htail := ih hrestlen fun hmem => hnul (by simp [hmem])
      rw [(linesFrom_append [] line _).1, (linesFrom_append [] line _).2, hlines, hrest]
      simp only [htail, linesFrom, restFrom, output, nil_append, if_true, filter_cons]
      split_ifs <;> simp

section Pieces

variable {pattern buf piece : List Char} {pieces : List (List Char)}

/-- What stays in `buf`. -/
def kept (buf piece : List Char) : List Char := if '\n' ∈ piece then restFrom buf piece else []

theorem kept_clean (hbuf : '\n' ∉ buf) {rest : List Char} (hnul : '\x00' ∉ buf ++ piece ++ rest) :
    '\n' ∉ kept buf piece ∧ '\x00' ∉ kept buf piece ++ rest := by
  simp only [mem_append, not_or] at hnul
  have hmem : ∀ x ∈ kept buf piece, x ∈ buf ∨ x ∈ piece ∧ x ≠ '\n' := by
    intro x hx
    rw [kept] at hx
    split_ifs at hx
    · exact mem_restFrom hx
    · cases hx
  refine ⟨fun hx => ?_, fun hx => ?_⟩
  · rcases hmem _ hx with hx | hx
    · exact hbuf hx
    · exact hx.2 rfl
  · rcases mem_append.1 hx with hx | hx
    · exact (hmem _ hx).elim hnul.1.1 fun hx => hnul.1.2 hx.1
    · exact hnul.2 hx

theorem grepRead_eq (hbuf : '\n' ∉ buf) (hnul : '\x00' ∉ buf ++ piece) :
    grepRead pattern buf piece = (output pattern (linesFrom buf piece), kept buf piece) := by
  obtain ⟨hlines, hrest⟩ := linesFrom_of_notMem [] hbuf
  rw [nil_append] at hrest
  have hscan := scan_eq pattern (Nat.le_refl _) hnul
  rw [(linesFrom_append [] buf piece).1, (linesFrom_append [] buf piece).2, hlines, hrest,
    nil_append] at hscan
  simp only [grepRead, hscan]
  by_cases hmem : '\n' ∈ piece
  · have hlt := length_restFrom_lt buf hmem
    rw [kept, if_pos hmem, length_append, if_neg (Nat.ne_of_lt hlt)]
  · rw [kept, (linesFrom_of_notMem _ hmem).2, if_pos rfl, if_neg hmem]

/-- Every piece up to the one with the last newline has a newline. -/
def Whole : List (List Char) → Prop
  | [] => True
  | piece :: pieces => ('\n' ∈ piece ∨ '\n' ∉ pieces.flatten) ∧ Whole pieces

theorem whole_of_notMem (h : '\n' ∉ pieces.flatten) : Whole pieces := by
  induction pieces with
  | nil => trivial
  | cons piece pieces ih =>
    rw [flatten_cons, mem_append, not_or] at h
    exact ⟨.inr h.2, ih h.2⟩

/-- By induction on the pieces, with the line that `buf` holds the beginning of. -/
theorem grep_eq (hbuf : '\n' ∉ buf) (hnul : '\x00' ∉ buf ++ pieces.flatten)
    (hwhole : Whole pieces) :
    grep pattern buf pieces = output pattern (linesFrom buf pieces.flatten) := by
  induction pieces generalizing buf with
  | nil => rfl
  | cons piece pieces ih =>
    rw [flatten_cons, ← append_assoc] at hnul
    obtain ⟨hkept, hkept'⟩ := kept_clean hbuf hnul
    rw [grep, grepRead_eq hbuf fun hmem => hnul (mem_append_left _ hmem),
      ih hkept hkept' hwhole.2, flatten_cons, (linesFrom_append buf piece _).1, output_append]
    by_cases hmem : '\n' ∈ piece
    · rw [kept, if_pos hmem]
    · have hend := hwhole.1.resolve_left hmem
      rw [(linesFrom_of_notMem _ hend).1, (linesFrom_of_notMem _ hend).1]

/-- A piece without a newline is lost to the line that ends later. -/
theorem length_grep_lt (hbuf : '\n' ∉ buf) (hnul : '\x00' ∉ buf ++ pieces.flatten)
    (hfits : Fits [] buf pieces) (hnot : ¬ Whole pieces) :
    (grep [] buf pieces).length < (output [] (linesFrom buf pieces.flatten)).length := by
  induction pieces generalizing buf with
  | nil => exact absurd trivial hnot
  | cons piece pieces ih =>
    rw [flatten_cons, ← append_assoc] at hnul
    obtain ⟨hkept, hkept'⟩ := kept_clean hbuf hnul
    obtain ⟨hne, -, hfits⟩ := hfits
    rw [grepRead_eq hbuf fun hmem => hnul (mem_append_left _ hmem)] at hfits
    have hrest := ih hkept hkept' hfits
    rw [grep, grepRead_eq hbuf fun hmem => hnul (mem_append_left _ hmem), flatten_cons,
      (linesFrom_append buf piece _).1, output_append, length_append, length_append]
    refine Nat.add_lt_add_left ?_ _
    by_cases hmem : '\n' ∈ piece
    · rw [kept, if_pos hmem] at hrest ⊢
      exact hrest fun hwhole => hnot ⟨.inl hmem, hwhole⟩
    · have hlater : '\n' ∈ pieces.flatten := by
        by_contra hend
        exact hnot ⟨.inr hend, whole_of_notMem hend⟩
      rw [kept, if_neg hmem] at hkept' hrest ⊢
      have hle : (grep [] [] pieces).length ≤ (output [] (linesFrom [] pieces.flatten)).length := by
        by_cases hwhole : Whole pieces
        · rw [grep_eq not_mem_nil hkept' hwhole]
        · exact Nat.le_of_lt (hrest hwhole)
      have hlen := length_output_nil [] pieces.flatten
      have hlen' := length_output_nil (restFrom buf piece) pieces.flatten
      rw [restFrom_of_mem hlater (restFrom buf piece) []] at hlen'
      rw [(linesFrom_of_notMem _ hmem).2] at hlen' ⊢
      rw [length_append] at hlen'
      have hpos := length_pos_of_ne_nil hne
      rw [length_nil] at hlen
      dsimp only
      omega

end Pieces

/-- For every stream without `'\0'`, read in whatever pieces: `grep` writes exactly the lines
that match, for every pattern, if and only if every piece up to the last newline of the stream
has a newline. Then the output does not depend on the pieces. -/
theorem grep_exact_iff {pieces : List (List Char)} (hfits : ∀ pattern, Fits pattern [] pieces)
    (hnul : '\x00' ∉ pieces.flatten) :
    ((∀ pattern, grep pattern [] pieces = output pattern (linesFrom [] pieces.flatten)) ↔
        Whole pieces) ∧
      ∀ pieces', Whole pieces → Whole pieces' → pieces'.flatten = pieces.flatten →
        ∀ pattern, grep pattern [] pieces' = grep pattern [] pieces := by
  have hnil : '\n' ∉ ([] : List Char) := not_mem_nil
  refine ⟨⟨fun hexact => ?_, fun hwhole pattern => grep_eq hnil hnul hwhole⟩, ?_⟩
  · by_contra hnot
    have hlt := length_grep_lt hnil hnul (hfits []) hnot
    rw [hexact []] at hlt
    exact Nat.lt_irrefl _ hlt
  · intro pieces' hwhole hwhole' heq pattern
    rw [grep_eq hnil hnul hwhole, ← heq, grep_eq hnil (heq ▸ hnul) hwhole']

theorem grep_exact_iff_two :
    grep "ab".toList [] ["ab\nc".toList, "d\n".toList] = "ab\n".toList := by
  have hfits : ∀ pattern, Fits pattern [] ["ab\nc".toList, "d\n".toList] := by
    intro pattern
    have hread : (grepRead pattern [] "ab\nc".toList).2 = "c".toList := by
      rw [grepRead_eq (by decide) (by decide)]
      rfl
    rw [Fits, hread]
    exact ⟨by decide, by decide, by decide, by decide, trivial⟩
  rw [(grep_exact_iff hfits (by decide)).1.2 ⟨.inl (by decide), .inl (by decide), trivial⟩]
  decide

/-- `abc` has come in two reads, and the first is thrown away. -/
theorem grep_loses_line : Fits "ab".toList [] ["ab".toList, "c\n".toList] ∧
    grep "ab".toList [] ["ab".toList, "c\n".toList] = [] ∧
    output "ab".toList (linesFrom [] "abc\n".toList) = "abc\n".toList := by
  refine ⟨⟨by decide, by decide, ?_, ?_, trivial⟩, by decide, by decide⟩ <;> decide

end Xv6.Grep
