import Mathlib.Logic.Function.Basic

/-!
# Locks and program points

A lock records the process that holds it, and some program points are inside of its
critical sections. `Guards` says that the holder is the one process at such a point.
It is kept by a process that moves without crossing the border, by one that takes
the free lock and goes in, and by one that gives the lock up and goes out.
-/

namespace Mutex

open Function

variable {P C : Type*} {lock : Option P} {inside : C → Bool} {pc : P → C} {p q : P} {c : C}

def Guards (lock : Option P) (inside : C → Bool) (pc : P → C) : Prop :=
  ∀ p, lock = some p ↔ inside (pc p) = true

theorem Guards.eq (h : Guards lock inside pc) (hp : inside (pc p) = true)
    (hq : inside (pc q) = true) : p = q :=
  Option.some.inj (((h p).2 hp).symm.trans ((h q).2 hq))

theorem Guards.outside (h : Guards none inside pc) (p : P) : inside (pc p) = false := by
  by_contra hp
  cases (h p).2 (eq_true_of_ne_false hp)

variable [DecidableEq P]

theorem Guards.stay (h : Guards lock inside pc) (hc : inside c = inside (pc p)) :
    Guards lock inside (update pc p c) := by
  intro q
  by_cases hq : q = p
  · rw [hq, update_self, hc]
    exact h p
  · rw [update_of_ne hq]
    exact h q

theorem Guards.take (h : Guards none inside pc) (hc : inside c = true) :
    Guards (some p) inside (update pc p c) := by
  intro q
  by_cases hq : q = p
  · rw [hq, update_self]
    exact iff_of_true rfl hc
  · rw [update_of_ne hq, h.outside q]
    exact iff_of_false (fun heq => hq (Option.some.inj heq).symm) Bool.false_ne_true

theorem Guards.give (h : Guards lock inside pc) (hp : inside (pc p) = true)
    (hc : inside c = false) : Guards none inside (update pc p c) := by
  intro q
  by_cases hq : q = p
  · rw [hq, update_self, hc]
    exact iff_of_false (Option.some_ne_none p).symm Bool.false_ne_true
  · rw [update_of_ne hq]
    exact iff_of_false (Option.some_ne_none q).symm fun hin => hq (h.eq hin hp)

end Mutex
