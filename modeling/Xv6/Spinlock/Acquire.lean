import Xv6.Library.Machine
import Xv6.Library.Mutex

/-!
# Spinlocks

`acquire` and `release` of `spinlock.c`, called by any number of CPUs on one lock. The `xchg`
and the stores to `lk->cpu` and to `lk->locked` are steps of their own, between which other
CPUs act. A call that panics is no step.
-/

namespace Xv6.Spinlock.Acquire

open Function Machine Mutex Option

/-- Where a CPU is: before the `xchg` and before the store to `lk->cpu` in `acquire`, between
`acquire` and `release`, and before the store to `lk->locked` in `release`. -/
inductive Pc where
  | out
  | spinning
  | taken
  | critical
  | clearing
  deriving DecidableEq

structure State (C : Type*) where
  locked : Bool
  cpu : Option C
  pc : C → Pc

inductive Event (C : Type*) where
  | acquire (c : C)
  | release (c : C)
  /-- A CPU in one of the calls goes on. -/
  | advance (c : C)

def initlock (C : Type*) : State C := ⟨false, none, fun _ => .out⟩

variable {C : Type*} [DecidableEq C] {s t : State C} {c : C} {owner : Option C}

def State.holding (s : State C) (c : C) : Bool := s.locked && decide (s.cpu = some c)

def step (s : State C) : Event C → Option (State C)
  | .acquire c =>
    if s.pc c = .out ∧ s.holding c = false then some { s with pc := update s.pc c .spinning }
    else none
  | .release c =>
    if s.pc c = .critical ∧ s.holding c = true then
      some { s with cpu := none, pc := update s.pc c .clearing }
    else none
  | .advance c =>
    match s.pc c with
    | .spinning =>
      if s.locked then some s else some { s with locked := true, pc := update s.pc c .taken }
    | .taken => some { s with cpu := some c, pc := update s.pc c .critical }
    | .clearing => some { s with locked := false, pc := update s.pc c .out }
    | _ => none

/-- A CPU has the lock from its `xchg` on. -/
def Pc.inside : Pc → Bool
  | .taken | .critical | .clearing => true
  | _ => false

structure Inv (s : State C) (owner : Option C) : Prop where
  guards : Guards owner Pc.inside s.pc
  locked : s.locked = owner.isSome
  cpu : ∀ c, s.cpu = some c ↔ s.pc c = .critical

theorem Inv.holding (h : Inv s owner) (c : C) : s.holding c = true ↔ s.pc c = .critical := by
  rw [State.holding, Bool.and_eq_true, decide_eq_true_iff, h.cpu]
  refine and_iff_right_of_imp fun hc => ?_
  rw [h.locked, (h.guards c).2 (hc ▸ rfl)]
  rfl

/-- A CPU moves, and `lk->cpu` with it if it enters or leaves the critical section. -/
theorem Inv.move (h : Inv s owner) {x : Pc} {o r : Option C} {b : Bool}
    (ho : Guards o Pc.inside (update s.pc c x)) (hb : b = o.isSome)
    (hr : r = some c ↔ x = .critical) (hother : ∀ d ≠ c, r = some d ↔ s.cpu = some d) :
    Inv ⟨b, r, update s.pc c x⟩ o := by
  refine ⟨ho, hb, fun d => ?_⟩
  by_cases hd : d = c
  · subst hd
    simpa using hr
  · simpa [hd, hother d hd] using h.cpu d

theorem Inv.step {e : Event C} (h : Inv s owner) (hstep : step s e = some t) :
    ∃ owner, Inv t owner := by
  cases e with
  | acquire c =>
    obtain ⟨⟨hc, -⟩, rfl⟩ := ite_some_none_eq_some.1 hstep
    exact ⟨owner, h.move (h.guards.stay (hc ▸ rfl)) h.locked (by simp [h.cpu, hc])
      fun _ _ => Iff.rfl⟩
  | release c =>
    obtain ⟨⟨hc, -⟩, rfl⟩ := ite_some_none_eq_some.1 hstep
    refine ⟨owner, h.move (h.guards.stay (hc ▸ rfl)) h.locked (by simp) fun d hd => ?_⟩
    rw [(h.cpu c).2 hc]
    exact iff_of_false (by simp) fun heq => hd (some.inj heq).symm
  | advance c =>
    simp only [Acquire.step] at hstep
    split at hstep
    case h_1 hc =>
      split_ifs at hstep with hlocked
      · cases hstep
        exact ⟨owner, h⟩
      · cases hstep
        obtain rfl : owner = none := by simpa [h.locked] using hlocked
        exact ⟨some c, h.move (h.guards.take rfl) rfl (by simp [h.cpu, hc]) fun _ _ => Iff.rfl⟩
    case h_2 hc =>
      cases hstep
      refine ⟨owner, h.move (h.guards.stay (hc ▸ rfl)) h.locked (by simp) fun d hd => ?_⟩
      -- nobody else is in the critical section
      refine iff_of_false (fun heq => hd (some.inj heq).symm) fun hold => hd ?_
      exact h.guards.eq (by rw [(h.cpu d).1 hold]; rfl) (hc ▸ rfl)
    case h_3 hc =>
      cases hstep
      exact ⟨none, h.move (h.guards.give (hc ▸ rfl) rfl) rfl (by simp [h.cpu, hc])
        fun _ _ => Iff.rfl⟩
    case h_4 => cases hstep

/-- In every interleaving at most one CPU has the lock, and the lock is free when no CPU has
it. `holding` is true just between `acquire` and `release`, so that neither of them panics
when a CPU calls it in its turn. -/
theorem spinlock_excludes {es : List (Event C)} (hrun : run step (initlock C) es = some s) :
    (∀ c d, (s.pc c).inside = true → (s.pc d).inside = true → c = d) ∧
      (s.locked = true ↔ ∃ c, (s.pc c).inside = true) ∧
      ∀ c, s.holding c = true ↔ s.pc c = .critical := by
  obtain ⟨owner, h⟩ : ∃ owner, Inv s owner := by
    refine run_invariant (I := fun s => ∃ owner, Inv s owner) ⟨none, ?_⟩
      (fun _ _ _ h hstep => h.elim fun _ h => h.step hstep) hrun
    exact ⟨fun c => by simp [initlock, Pc.inside], rfl, by simp [initlock]⟩
  refine ⟨fun c d => h.guards.eq, ?_, h.holding⟩
  rw [h.locked, isSome_iff_exists]
  exact exists_congr h.guards

theorem spinlock_excludes_contended :
    ∃ es s, run step (initlock (Fin 2)) es = some s ∧ s.pc 0 = .spinning ∧ s.pc 1 = .critical := by
  obtain ⟨s, hs, h₀, h₁⟩ : ∃ s, run step (initlock (Fin 2)) [.acquire 0, .acquire 1, .advance 1,
      .advance 0, .advance 1] = some s ∧ s.pc 0 = .spinning ∧ s.holding 1 := by decide
  exact ⟨_, s, hs, h₀, ((spinlock_excludes hs).2.2 1).1 h₁⟩

end Xv6.Spinlock.Acquire
