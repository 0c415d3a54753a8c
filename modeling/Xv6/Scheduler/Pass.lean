import Mathlib.Data.Rat.Defs
import Xv6.Scheduler.Levels

/-!
# What a pass of the scheduler guarantees

A pass whose draw returns chooses a process exactly when one is runnable, and leaves the
states of all processes alone. Whether it keeps to the queues and whether it promotes the
right processes depends on the table, since the second level takes processes of any queue
and ages by position; the conditions below are exact.
-/

namespace Xv6.Scheduler

open PTable (Slot ProcState)

variable {F : Type*} {fl : Floats F} {t : Table} {ticks : BitVec 32} {draws : List Draw}
  {c : Choice} {p q : Slot} {x : Proc}

theorem state_of_levels (h : levels fl ticks t draws = .ok c) (p : Slot) :
    (c.table p).state = (t p).state := by
  rcases levels_cases h with ⟨-, -, -, htable⟩ | ⟨-, -, htable⟩
  · rw [htable]
  · rw [htable, state_aged]

theorem runnable_of_found (h : levels fl ticks t draws = .ok c) (hp : c.found = some p) :
    (t p).state = .runnable := by
  rcases levels_cases h with ⟨q, hq, hcand, -⟩ | ⟨-, hfirst, -⟩
  · cases hp.symm.trans hq
    exact hcand.1
  · exact runnable_of_firstRunnable (hfirst.symm.trans hp)

theorem found_of_runnable (h : levels fl ticks t draws = .ok c) (hp : (t p).state = .runnable) :
    c.found.isSome = true := by
  rcases levels_cases h with ⟨q, hq, -, -⟩ | ⟨-, hfirst, -⟩
  · rw [hq]
    rfl
  · rw [hfirst]
    cases hnone : firstRunnable t with
    | some q => rfl
    | none => exact absurd hp (firstRunnable_none hnone p)

/-- When the tickets of the runnable processes at `PL1` come to at most `RAND_MAX`, a pass
returns as soon as `genrand` gives a value that is accepted, and then it has chosen a process
if and only if one is runnable, it is one that was runnable before, and no process has
changed its state. -/
theorem scheduler_work_conserving (fl : Floats F) (ticks : BitVec 32) (draws : List Draw)
    (hsum : total t ≤ randMax.toNat) :
    ((∃ c, levels fl ticks t draws = .ok c) ↔ ∃ x ∈ draws, Accepts (ticketsSum t slots 0) x) ∧
    ∀ c, levels fl ticks t draws = .ok c → (c.found.isSome = true ↔ ∃ p, (t p).state = .runnable) ∧
      (∀ p, c.found = some p → (t p).state = .runnable) ∧
      ∀ p, (c.table p).state = (t p).state := by
  have hmax : (ticketsSum t slots 0).toNat < 2 ^ 31 := by
    rw [ticketsSum_of_le hsum]
    exact Nat.lt_of_le_of_lt hsum (by decide)
  refine ⟨?_, fun c h => ⟨⟨?_, ?_⟩, fun p => runnable_of_found h, state_of_levels h⟩⟩
  · rw [levels_ok_iff, randomAtMost, if_neg (numBins_ne_zero hmax), randomLoop_returns]
  · intro hfound
    obtain ⟨p, hp⟩ := Option.isSome_iff_exists.1 hfound
    exact ⟨p, runnable_of_found h hp⟩
  · rintro ⟨p, hp⟩
    exact found_of_runnable h hp

def rationals : Floats ℚ := ⟨fun a b => (a : ℚ) / b, -1, fun a b => decide (b < a)⟩

theorem exists_choice (fl : Floats F) (ticks : BitVec 32) (t : Table) (draws : List Draw)
    (r : Option Slot) (h : (levels fl ticks t draws).toOption.map Choice.found = some r) :
    ∃ c, levels fl ticks t draws = .ok c ∧ c.found = r := by
  cases hc : levels fl ticks t draws with
  | error e =>
    rw [hc] at h
    cases h
  | ok c =>
    rw [hc] at h
    exact ⟨c, rfl, Option.some.inj h⟩

/-- A process in slot `0`, one in slot `1`, and no others. -/
def twoProcs (x y : Proc) : Table :=
  fun p => if p = 0 then x else if p = 1 then y else ⟨.unused, .pl1, 0, 0, 0, 0⟩

/-- One process sleeps and the other, in the third queue, is chosen. -/
theorem scheduler_work_conserving_oneRunnable :
    ∃ c, levels rationals 7 (twoProcs ⟨.sleeping, .pl1, 1, 0, 0, 10⟩ ⟨.runnable, .pl3, 1, 0, 0, 10⟩)
        [5] = .ok c ∧ c.found.isSome = true := by
  have hlaw := scheduler_work_conserving (t := twoProcs ⟨.sleeping, .pl1, 1, 0, 0, 10⟩
    ⟨.runnable, .pl3, 1, 0, 0, 10⟩) rationals 7 [5] (by decide +kernel)
  obtain ⟨c, hc⟩ := hlaw.1.2 ⟨5, List.mem_singleton.2 rfl, by decide +kernel⟩
  exact ⟨c, hc, (hlaw.2 c hc).1.2 ⟨1, rfl⟩⟩

def Priority.level : Priority → ℕ
  | .pl1 => 0
  | .pl2 => 1
  | .pl3 => 2

/-- No runnable process is in a queue that goes before the one of `p`. -/
def Foremost (t : Table) (p : Slot) : Prop :=
  ∀ q, (t q).state = .runnable → ¬ (t q).priority.level < (t p).priority.level

/-- No runnable process is at `PL1`, the first runnable one is at `PL3` and not old enough
to be promoted, and another one is at `PL2`. -/
def Inverted (t : Table) (ticks : BitVec 32) : Prop :=
  (∀ p, ¬ Candidate t p) ∧
    (∃ p ∈ firstRunnable t, (t p).priority = .pl3 ∧ (t p).waiting ticks ≤ 2500) ∧
    ∃ q, (t q).state = .runnable ∧ (t q).priority = .pl2

instance : Decidable (Inverted t ticks) :=
  inferInstanceAs (Decidable ((∀ p, ¬ Candidate t p) ∧ (∃ p ∈ firstRunnable t, _) ∧ ∃ _, _))

theorem applyAging_of_le (h : x.waiting ticks ≤ 2500) : x.applyAging ticks = x :=
  if_neg (Int.not_lt.2 h)

theorem priority_applyAging (h : 2500 < x.waiting ticks) :
    (x.applyAging ticks).priority = .pl1 := by
  rw [Proc.applyAging, if_pos h]

theorem aged_of_ne_first (hfirst : firstRunnable t = some p) (hq : (t q).state = .runnable)
    (hne : q ≠ p) : aged ticks t q = t q := by
  have hmet := met_of_firstRunnable hfirst
  have hpq : p < q := by
    rcases lt_trichotomy q p with hlt | heq | hlt
    · exact absurd hq (hmet q hlt)
    · exact absurd heq hne
    · exact hlt
  exact if_neg (not_met_of_runnable (runnable_of_firstRunnable hfirst) hpq)

theorem aged_first (hfirst : firstRunnable t = some p) : aged ticks t p = (t p).applyAging ticks :=
  if_pos (met_of_firstRunnable hfirst)

/-- A dispatched process is foremost, at the moment it is chosen, if and only if the table
was not inverted. -/
theorem priority_respected_iff (h : levels fl ticks t draws = .ok c) (hp : c.found = some p) :
    Foremost c.table p ↔ ¬ Inverted t ticks := by
  rcases levels_cases h with ⟨p', hp', hcand, htable⟩ | ⟨hnone, hfirst, htable⟩
  · cases hp.symm.trans hp'
    constructor
    · exact fun _ hinv => hinv.1 p hcand
    · intro _ q _
      rw [htable, hcand.2]
      exact Nat.not_lt_zero _
  · have hfirst := hfirst.symm.trans hp
    rw [htable]
    constructor
    · rintro hfore ⟨-, ⟨p', hp', hpl3, hwait⟩, q, hq, hpl2⟩
      cases hfirst.symm.trans hp'
      have hne : q ≠ p := by
        rintro rfl
        cases hpl2.symm.trans hpl3
      refine hfore q (state_aged.trans hq) ?_
      rw [aged_of_ne_first hfirst hq hne, aged_first hfirst, applyAging_of_le hwait, hpl2, hpl3]
      decide
    · intro hinv q hq hlt
      rw [state_aged] at hq
      by_cases hold : 2500 < (t p).waiting ticks
      · rw [aged_first hfirst, priority_applyAging hold] at hlt
        exact Nat.not_lt_zero _ hlt
      · have hwait := Int.not_lt.1 hold
        have hne : q ≠ p := by
          rintro rfl
          exact Nat.lt_irrefl _ hlt
        rw [aged_first hfirst, applyAging_of_le hwait, aged_of_ne_first hfirst hq hne] at hlt
        -- What is left is a process at `PL2` behind one at `PL3`.
        have hq1 : (t q).priority ≠ .pl1 := fun hpl1 => hnone q ⟨hq, hpl1⟩
        have hlevels : (t q).priority = .pl2 ∧ (t p).priority = .pl3 := by
          cases hpq : (t q).priority <;> cases hpp : (t p).priority <;>
            simp_all [Priority.level]
        exact hinv ⟨hnone, ⟨p, hfirst, hlevels.2, hwait⟩, q, hq, hlevels.1⟩

theorem priority_respected_iff_inOrder :
    ∃ c, levels rationals 0 (twoProcs ⟨.runnable, .pl2, 1, 0, 0, 10⟩ ⟨.runnable, .pl3, 1, 0, 0, 10⟩)
        [0] = .ok c ∧ c.found = some 0 ∧ Foremost c.table 0 := by
  obtain ⟨c, hc, hfound⟩ := exists_choice rationals 0
    (twoProcs ⟨.runnable, .pl2, 1, 0, 0, 10⟩ ⟨.runnable, .pl3, 1, 0, 0, 10⟩) [0] (some 0)
    (by decide +kernel)
  exact ⟨c, hc, hfound, (priority_respected_iff hc hfound).2 (by decide +kernel)⟩

/-- A process of the third queue is dispatched although one of the second is runnable. -/
theorem pl3_dispatched_before_pl2 :
    ∃ c, levels rationals 0 (twoProcs ⟨.runnable, .pl3, 1, 0, 0, 10⟩ ⟨.runnable, .pl2, 1, 0, 0, 10⟩)
        [0] = .ok c ∧ c.found = some 0 ∧ ¬ Foremost c.table 0 := by
  obtain ⟨c, hc, hfound⟩ := exists_choice rationals 0
    (twoProcs ⟨.runnable, .pl3, 1, 0, 0, 10⟩ ⟨.runnable, .pl2, 1, 0, 0, 10⟩) [0] (some 0)
    (by decide +kernel)
  refine ⟨c, hc, hfound, ?_⟩
  have htable : (levels rationals 0 (twoProcs ⟨.runnable, .pl3, 1, 0, 0, 10⟩
      ⟨.runnable, .pl2, 1, 0, 0, 10⟩) [0]).toOption.map (fun c => (c.table 0, c.table 1)) =
        some (⟨.runnable, .pl3, 1, 0, 0, 10⟩, ⟨.runnable, .pl2, 1, 0, 0, 10⟩) := by
    decide +kernel
  rw [hc] at htable
  obtain ⟨h0, h1⟩ := Prod.mk.inj (Option.some.inj htable)
  intro hfore
  refine hfore 1 (by rw [h1]) ?_
  rw [h0, h1]
  decide

/-- The number of ticks since a process last ran. -/
def Proc.idle (ticks : BitVec 32) (x : Proc) : ℕ := (ticks - x.lastRun).toNat

theorem waiting_eq_idle (h : x.idle ticks < 2 ^ 31) : x.waiting ticks = x.idle ticks := by
  rw [Proc.waiting, BitVec.toInt_eq_toNat_of_lt (by rw [Proc.idle] at h; omega)]
  rfl

/-- Of the processes at `PL2` and `PL3`, exactly the runnable ones that have waited long
enough are promoted. -/
def PromotesWaiters (ticks : BitVec 32) (t t' : Table) : Prop :=
  ∀ p, (t p).priority ≠ .pl1 →
    ((t' p).priority = .pl1 ↔ (t p).state = .runnable ∧ 2500 < (t p).idle ticks)

/-- The processes at `PL2` and `PL3` that have waited long enough are runnable exactly where
the scan of the second level comes by. -/
def Placed (ticks : BitVec 32) (t : Table) : Prop :=
  ∀ p, (t p).priority ≠ .pl1 → 2500 < (t p).idle ticks →
    ((t p).state = .runnable ↔ (∀ q, ¬ Candidate t q) ∧ Met t p)

instance : Decidable (Placed ticks t) :=
  inferInstanceAs (Decidable (∀ p, _ → _ → (_ ↔ (∀ q, ¬ Candidate t q) ∧ Met t p)))

theorem promoted_iff (h : levels fl ticks t draws = .ok c) (hidle : (t p).idle ticks < 2 ^ 31)
    (hp : (t p).priority ≠ .pl1) :
    (c.table p).priority = .pl1 ↔ ((∀ q, ¬ Candidate t q) ∧ Met t p) ∧ 2500 < (t p).idle ticks := by
  have hwaiting := waiting_eq_idle hidle
  rcases levels_cases h with ⟨p', -, hcand, htable⟩ | ⟨hnone, -, htable⟩
  · rw [htable]
    constructor
    · exact fun hpl1 => absurd hpl1 hp
    · exact fun hmet => absurd hcand (hmet.1.1 p')
  · rw [htable, aged]
    by_cases hmet : Met t p
    · rw [if_pos hmet]
      by_cases hold : 2500 < (t p).idle ticks
      · rw [priority_applyAging (by omega)]
        exact iff_of_true rfl ⟨⟨hnone, hmet⟩, hold⟩
      · rw [applyAging_of_le (by omega)]
        exact iff_of_false hp fun hand => hold hand.2
    · rw [if_neg hmet]
      exact iff_of_false hp fun hand => hmet hand.1.2

/-- When `ticks - last_run` of every process is in `[0, 2 ^ 31)`, a pass promotes exactly the
waiting processes if and only if they are placed so. -/
theorem aging_exact_iff (hidle : ∀ p, (t p).idle ticks < 2 ^ 31)
    (h : levels fl ticks t draws = .ok c) : PromotesWaiters ticks t c.table ↔ Placed ticks t := by
  constructor
  · intro hprom p hp hold
    have hiff := (promoted_iff h (hidle p) hp).symm.trans (hprom p hp)
    constructor
    · exact fun hrun => (hiff.2 ⟨hrun, hold⟩).1
    · exact fun hmet => (hiff.1 ⟨hmet, hold⟩).1
  · intro hplaced p hp
    rw [promoted_iff h (hidle p) hp]
    constructor
    · exact fun hand => ⟨(hplaced p hp hand.2).2 hand.1, hand.2⟩
    · exact fun hand => ⟨(hplaced p hp hand.2).1 hand.1, hand.2⟩

/-- A runnable process that has waited long, in front of one that has not. -/
theorem aging_exact_iff_oneWaiter :
    ∃ c, levels rationals 3000
        (twoProcs ⟨.runnable, .pl3, 1, 0, 0, 10⟩ ⟨.runnable, .pl2, 1, 2999, 0, 10⟩) [0] = .ok c ∧
      PromotesWaiters 3000
        (twoProcs ⟨.runnable, .pl3, 1, 0, 0, 10⟩ ⟨.runnable, .pl2, 1, 2999, 0, 10⟩) c.table := by
  obtain ⟨c, hc, -⟩ := exists_choice rationals 3000
    (twoProcs ⟨.runnable, .pl3, 1, 0, 0, 10⟩ ⟨.runnable, .pl2, 1, 2999, 0, 10⟩) [0] (some 0)
    (by decide +kernel)
  exact ⟨c, hc, (aging_exact_iff (by decide +kernel) hc).2 (by decide +kernel)⟩

/-- A sleeping process in front of the one that is dispatched is promoted. -/
theorem aging_promotes_sleeper :
    (∀ p, (twoProcs ⟨.sleeping, .pl3, 1, 0, 0, 10⟩ ⟨.runnable, .pl2, 1, 2500, 0, 10⟩ p).idle 2501 <
      2 ^ 31) ∧
    ∃ c, levels rationals 2501
        (twoProcs ⟨.sleeping, .pl3, 1, 0, 0, 10⟩ ⟨.runnable, .pl2, 1, 2500, 0, 10⟩) [0] = .ok c ∧
      ¬ PromotesWaiters 2501
        (twoProcs ⟨.sleeping, .pl3, 1, 0, 0, 10⟩ ⟨.runnable, .pl2, 1, 2500, 0, 10⟩) c.table := by
  refine ⟨by decide +kernel, ?_⟩
  obtain ⟨c, hc, -⟩ := exists_choice rationals 2501
    (twoProcs ⟨.sleeping, .pl3, 1, 0, 0, 10⟩ ⟨.runnable, .pl2, 1, 2500, 0, 10⟩) [0] (some 1)
    (by decide +kernel)
  have htable : (levels rationals 2501 (twoProcs ⟨.sleeping, .pl3, 1, 0, 0, 10⟩
      ⟨.runnable, .pl2, 1, 2500, 0, 10⟩) [0]).toOption.map (fun c => (c.table 0).priority) =
        some .pl1 := by
    decide +kernel
  rw [hc] at htable
  refine ⟨c, hc, fun hprom => ?_⟩
  have hsleeper := (hprom 0 (by decide)).1 (Option.some.inj htable)
  cases hsleeper.1

end Xv6.Scheduler
