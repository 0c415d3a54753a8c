import Mathlib.Data.List.Nodup
import Mathlib.Data.Option.Basic

/-!
# Queues as singly linked lists

A link is the queue's own, `none`, or that of an element. `Leads next a l` says that the
links lead from the link `a` through the elements of `l` to a null link. An element is
put at the end by a walk to the last link and an assignment to it, and the first one is
taken off by an assignment to the queue's own link. The walk has a bound on its length,
which a queue without repetitions keeps.
-/

namespace LinkedQueue

open Function List

variable {α : Type*} {next next' : Option α → Option α} {a : Option α} {x : α} {l : List α}

/-- The links lead from `a` through `l` to a null link. -/
def Leads (next : Option α → Option α) : Option α → List α → Prop
  | a, [] => next a = none
  | a, x :: l => next a = some x ∧ Leads next (some x) l

theorem leads_nil : Leads next a [] ↔ next a = none := Iff.rfl

theorem Leads.congr (h : Leads next a l) (heq : ∀ c ∈ a :: l.map some, next' c = next c) :
    Leads next' a l := by
  induction l generalizing a with
  | nil =>
    rw [leads_nil, heq a mem_cons_self]
    exact h
  | cons x l ih =>
    obtain ⟨hx, hl⟩ := h
    refine ⟨?_, ih hl fun c hc => heq c (mem_cons_of_mem a hc)⟩
    rw [heq a mem_cons_self]
    exact hx

theorem Leads.head?_eq (h : Leads next a l) : next a = l.head? := by
  cases l with
  | nil => exact h
  | cons x l => exact h.1

/-- The walk to the first null link, of at most `n` steps. -/
def walk (next : Option α → Option α) : ℕ → Option α → Option (Option α)
  | 0, _ => none
  | n + 1, a =>
    match next a with
    | none => some a
    | some x => walk next n (some x)

theorem Leads.walk_eq (h : Leads next a l) {n : ℕ} (hn : l.length < n) :
    walk next n a = some ((l.map some).getLastD a) := by
  induction l generalizing a n with
  | nil =>
    cases n with
    | zero => cases hn
    | succ n =>
      rw [walk, leads_nil.1 h]
      rfl
  | cons x l ih =>
    obtain ⟨hx, hl⟩ := h
    cases n with
    | zero => cases hn
    | succ n =>
      rw [walk, hx, map_cons, getLastD_cons]
      exact ih hl (Nat.lt_of_succ_lt_succ hn)

variable [DecidableEq α]

/-- An element with a null link is put at the end by an assignment to the last link. -/
theorem Leads.snoc (h : Leads next a l) (hnodup : (a :: l.map some).Nodup)
    (hx : next (some x) = none) (hmem : some x ∉ a :: l.map some) :
    Leads (update next ((l.map some).getLastD a) (some x)) a (l ++ [x]) := by
  induction l generalizing a with
  | nil =>
    refine ⟨update_self _ _ _, ?_⟩
    rw [leads_nil, update_of_ne]
    · exact hx
    · intro heq
      exact hmem (heq ▸ mem_cons_self)
  | cons y l ih =>
    obtain ⟨hy, hl⟩ := h
    rw [map_cons, getLastD_cons]
    obtain ⟨hout, hrest⟩ := nodup_cons.1 hnodup
    refine ⟨?_, ih hl hrest fun hin => hmem (mem_cons_of_mem a hin)⟩
    rw [update_of_ne]
    · exact hy
    · -- the last link is that of an element after `a`
      intro heq
      apply hout
      rw [heq]
      exact getLastD_mem_cons

def enqueue (n : ℕ) (next : Option α → Option α) (x : α) : Option (Option α → Option α) :=
  let next := update next (some x) none
  (walk next n none).map fun a => update next a (some x)

theorem Leads.enqueue {n : ℕ} (h : Leads next none l) (hnodup : l.Nodup) (hx : x ∉ l)
    (hn : l.length < n) : ∃ next', enqueue n next x = some next' ∧ Leads next' none (l ++ [x]) := by
  have hmem : some x ∉ none :: l.map some := by simpa using hx
  have hclear : Leads (update next (some x) none) none l := by
    refine h.congr fun c hc => update_of_ne ?_ _ _
    rintro rfl
    exact hmem hc
  refine ⟨_, ?_, hclear.snoc ?_ (update_self _ _ _) hmem⟩
  · rw [LinkedQueue.enqueue, hclear.walk_eq hn]
    rfl
  · rw [nodup_cons]
    exact ⟨by simp, hnodup.map (Option.some_injective α)⟩

def dequeue (next : Option α → Option α) (x : α) : Option α → Option α :=
  update next none (next (some x))

theorem Leads.dequeue (h : Leads next none (x :: l)) : Leads (dequeue next x) none l := by
  have hl := h.2
  cases l with
  | nil =>
    exact hl
  | cons y l =>
    refine ⟨?_, hl.2.congr fun c hc => update_of_ne ?_ _ _⟩
    · exact hl.1
    · rintro rfl
      simp at hc

end LinkedQueue
