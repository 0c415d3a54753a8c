import Mathlib.Computability.Language

/-!
# The matcher of grep

`match`, `matchhere` and `matchstar` of `grep.c`. A string is the list of the characters in
front of its `'\0'`. A pattern is read from left to right as items, of which each stands for a
language, and the matcher finds the texts that have a word of the product of these languages
in them: at the beginning after `^`, and at the end before a `$` that ends the pattern.
-/

namespace Xv6.Grep

open List

open scoped Computability

/-- The loop of `matchstar`, where `here` is `matchhere` with the rest of the pattern. -/
def matchstar (here : List Char → Bool) (c : Char) : List Char → Bool
  | [] => here []
  | t :: text => here (t :: text) || ((t = c || c = '.') && matchstar here c text)

def matchhere : List Char → List Char → Bool
  | [], _ => true
  | c :: '*' :: re, text => matchstar (matchhere re) c text
  | ['$'], text => text = []
  | c :: re, t :: text => (c = '.' || c = t) && matchhere re text
  | _ :: _, [] => false

def matchFrom (re : List Char) : List Char → Bool
  | [] => matchhere re []
  | t :: text => matchhere re (t :: text) || matchFrom re text

def match' : List Char → List Char → Bool
  | '^' :: re, text => matchhere re text
  | re, text => matchFrom re text

inductive Item where
  | one (c : Char)
  | star (c : Char)
  deriving DecidableEq

/-- A pattern without its `^`, read from left to right. -/
def items : List Char → List Item
  | [] => []
  | c :: '*' :: re => .star c :: items re
  | ['$'] => []
  | c :: re => .one c :: items re

/-- Does the pattern end in a `$` without a star? -/
def final : List Char → Bool
  | [] => false
  | _ :: '*' :: re => final re
  | ['$'] => true
  | _ :: re => final re

def letter (c : Char) : Language Char := {w | ∃ x, w = [x] ∧ (c = '.' ∨ c = x)}

def Item.language : Item → Language Char
  | .one c => letter c
  | .star c => (letter c)∗

def language (re : List Char) : Language Char := ((items re).map Item.language).prod

theorem mem_kstar_letter {c : Char} {w : List Char} :
    w ∈ (letter c)∗ ↔ ∀ x ∈ w, c = '.' ∨ c = x := by
  rw [Language.mem_kstar]
  constructor
  · rintro ⟨ws, rfl, hws⟩ x hx
    obtain ⟨v, hv, hx⟩ := mem_flatten.1 hx
    obtain ⟨y, rfl, hy⟩ := hws v hv
    rwa [mem_singleton.1 hx]
  · intro hw
    refine ⟨w.map fun x => [x], ?_, fun v hv => ?_⟩
    · rw [← flatMap_def, flatMap_singleton']
    · obtain ⟨x, hx, rfl⟩ := mem_map.1 hv
      exact ⟨x, rfl, hw x hx⟩

/-- The loop tries every split of the text into letters for the star and a rest, the empty and
the full one included. -/
theorem matchstar_iff {here : List Char → Bool} {c : Char} {text : List Char} :
    matchstar here c text = true ↔
      ∃ w rest, text = w ++ rest ∧ w ∈ (letter c)∗ ∧ here rest = true := by
  simp only [mem_kstar_letter]
  induction text with
  | nil => simp [matchstar]
  | cons t text ih =>
    rw [matchstar, Bool.or_eq_true, Bool.and_eq_true, ih]
    constructor
    · rintro (hhere | ⟨ht, w, rest, rfl, hw, hhere⟩)
      · exact ⟨[], t :: text, rfl, by simp, hhere⟩
      · refine ⟨t :: w, rest, rfl, forall_mem_cons.2 ⟨?_, hw⟩, hhere⟩
        simpa [or_comm, eq_comm (a := t)] using ht
    · rintro ⟨w, rest, heq, hw, hhere⟩
      cases w with
      | nil => exact .inl (by rwa [heq])
      | cons x w =>
        obtain ⟨rfl, rfl⟩ := cons_eq_cons.1 heq
        obtain ⟨hx, hw⟩ := forall_mem_cons.1 hw
        exact .inr ⟨by simpa [or_comm, eq_comm (a := t)] using hx, w, rest, rfl, hw, hhere⟩

theorem language_star (c : Char) (re : List Char) :
    language (c :: '*' :: re) = (letter c)∗ * language re := rfl

section One

variable {c : Char} {re : List Char} (hstar : ∀ re', re = '*' :: re' → False)
  (hend : c = '$' → re = [] → False)

include hstar hend

theorem language_one : language (c :: re) = letter c * language re := by
  rw [language, items.eq_4 c re hstar hend, map_cons, prod_cons]
  rfl

theorem matchhere_one (text : List Char) :
    matchhere (c :: re) text = true ↔
      ∃ t rest, text = t :: rest ∧ (c = '.' ∨ c = t) ∧ matchhere re rest = true := by
  cases text with
  | nil => simp [matchhere.eq_5 c re hstar hend]
  | cons t text => simp [matchhere.eq_4 c re t text hstar hend]

end One

/-- A word of the pattern begins the text, and is all of it before a final `$`. The induction
takes the pattern apart as `items` and `matchhere` do. -/
theorem matchhere_iff (re text : List Char) :
    matchhere re text = true ↔
      ∃ w rest, text = w ++ rest ∧ w ∈ language re ∧ (final re = true → rest = []) := by
  induction re using items.induct generalizing text with
  | case1 | case3 => simp [matchhere, language, items, final]
  | case2 c re ih =>
    rw [matchhere, matchstar_iff, language_star, final]
    simp only [ih]
    constructor
    · rintro ⟨v, _, rfl, hv, w, rest, rfl, hw, hfinal⟩
      exact ⟨v ++ w, rest, by simp, Language.append_mem_mul hv hw, hfinal⟩
    · rintro ⟨_, rest, rfl, ⟨v, hv, w, hw, rfl⟩, hfinal⟩
      exact ⟨v, w ++ rest, by simp, hv, w, rest, rfl, hw, hfinal⟩
  | case4 c re hstar hend ih =>
    rw [matchhere_one hstar hend, language_one hstar hend, final.eq_4 c re hstar hend]
    simp only [ih]
    constructor
    · rintro ⟨t, _, rfl, ht, w, rest, rfl, hw, hfinal⟩
      exact ⟨t :: w, rest, rfl, ⟨[t], ⟨t, rfl, ht⟩, w, hw, rfl⟩, hfinal⟩
    · rintro ⟨_, rest, rfl, ⟨_, ⟨t, rfl, ht⟩, w, hw, rfl⟩, hfinal⟩
      exact ⟨t, w ++ rest, rfl, ht, w, rest, rfl, hw, hfinal⟩

theorem matchFrom_iff {re text : List Char} :
    matchFrom re text = true ↔ ∃ before rest, text = before ++ rest ∧ matchhere re rest = true := by
  induction text with
  | nil => simp [matchFrom]
  | cons t text ih =>
    rw [matchFrom, Bool.or_eq_true, ih]
    constructor
    · rintro (hhere | ⟨before, rest, rfl, hhere⟩)
      · exact ⟨[], t :: text, rfl, hhere⟩
      · exact ⟨t :: before, rest, rfl, hhere⟩
    · rintro ⟨before, rest, heq, hhere⟩
      cases before with
      | nil => exact .inl (by rwa [heq])
      | cons x before =>
        obtain ⟨rfl, rfl⟩ := cons_eq_cons.1 heq
        exact .inr ⟨before, rest, rfl, hhere⟩

def anchored (re : List Char) : Bool := re.head? = some '^'

/-- The pattern without a `^` at its beginning. -/
def body (re : List Char) : List Char := if anchored re then re.tail else re

/-- `match` returns 1 exactly when a word of the pattern stands in the text, at its beginning
after `^` and at its end before a `$` without a star that ends the pattern. -/
theorem match_exact (re text : List Char) :
    match' re text = true ↔ ∃ before w after, text = before ++ w ++ after ∧ w ∈ language (body re) ∧
        (anchored re = true → before = []) ∧ (final (body re) = true → after = []) := by
  by_cases hanchored : anchored re = true
  · obtain ⟨rest, rfl⟩ : ∃ rest, re = '^' :: rest := by
      cases re with
      | nil => cases hanchored
      | cons c rest => exact ⟨rest, by simpa [anchored] using hanchored⟩
    simp [match', matchhere_iff, body, hanchored]
  · have hloop : match' re text = matchFrom re text := by
      rw [match']
      rintro rest rfl
      exact hanchored rfl
    rw [hloop, matchFrom_iff]
    simp only [matchhere_iff, body, hanchored, Bool.false_eq_true, if_false, false_imp_iff,
      true_and]
    constructor
    · rintro ⟨before, _, rfl, w, after, rfl, hw, hfinal⟩
      exact ⟨before, w, after, by simp, hw, hfinal⟩
    · rintro ⟨before, w, after, rfl, hw, hfinal⟩
      exact ⟨before, w ++ after, by simp, w, after, rfl, hw, hfinal⟩

example : match' "^a*b$".toList "aab".toList = true := by decide

example : match' "a.$".toList "abc".toList = false := by decide

end Xv6.Grep
