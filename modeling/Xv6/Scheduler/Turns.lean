import Mathlib.Data.Finset.Max
import Xv6.Scheduler.Pass

/-!
# Turns at the second level

`sched_rr` starts at the beginning of the table in every pass and keeps no record of whom it
chose before, and `yield` leaves the dispatched process where it was. As long as the same
processes are waiting at `PL2`, every dispatch of one of them is therefore a dispatch of the
one with the lowest slot. The processes take turns only if there is nobody to take turns
with.
-/

namespace Xv6.Scheduler

open List

open PTable (Slot ProcState)

variable {F : Type*} {fl : Floats F} {s t : State} {es : List Event} {draws : List Draw}
  {K : Finset Slot} {p : Slot}

def turn (fl : Floats F) (s : State) : Event → List Slot
  | .schedule draws =>
    (s.dispatched fl draws).toList.filter fun p => (s.proc p).priority = .pl2
  | _ => []

/-- The dispatches of processes at `PL2` in a run, in their order. -/
def turns (fl : Floats F) : State → List Event → List Slot
  | _, [] => []
  | s, e :: es =>
    turn fl s e ++ match step fl s e with
      | none => []
      | some t => turns fl t es

/-- The scheduler makes a pass when the first runnable process of the table is at `PL2`. -/
def pl2First (s : State) : Event → Bool
  | .schedule _ => (firstRunnable s.proc).any fun p => (s.proc p).priority = .pl2
  | _ => false

/-- The number of such passes in a run. -/
def passes (fl : Floats F) : State → List Event → ℕ
  | _, [] => 0
  | s, e :: es =>
    match step fl s e with
    | none => 0
    | some t => (pl2First s e).toNat + passes fl t es

/-- `K` are the runnable processes at `PL2`, none is at `PL1`, and none waits so long that
it is promoted. -/
structure Waiting (K : Finset Slot) (s : State) : Prop where
  mem_iff : ∀ p, p ∈ K ↔ (s.proc p).state = .runnable ∧ (s.proc p).priority = .pl2
  noPl1 : ∀ p, ¬ Candidate s.proc p
  young : ∀ p, (s.proc p).state = .runnable → (s.proc p).waiting s.ticks ≤ 2500

/-- Whenever the scheduler makes a pass, the processes of `K` are waiting: whoever was
dispatched has been put back. -/
def Steady (K : Finset Slot) (s : State) : Event → Prop
  | .schedule _ => Waiting K s
  | _ => True

instance : Decidable (Waiting K s) :=
  decidable_of_iff ((∀ p, p ∈ K ↔ (s.proc p).state = .runnable ∧ (s.proc p).priority = .pl2) ∧
      (∀ p, ¬ Candidate s.proc p) ∧
      ∀ p, (s.proc p).state = .runnable → (s.proc p).waiting s.ticks ≤ 2500)
    ⟨fun h => ⟨h.1, h.2.1, h.2.2⟩, fun h => ⟨h.mem_iff, h.noPl1, h.young⟩⟩

instance (e : Event) : Decidable (Steady K s e) :=
  match e with
  | .schedule _ => inferInstanceAs (Decidable (Waiting K s))
  | .allocproc | .forkFails _ | .forkStarts _ | .yield _ | .sleep _ | .wakeup _ | .exit _
  | .wait _ | .exec _ | .setTickets _ _ | .setQueue _ _ | .tick => isTrue trivial

theorem State.dispatched_eq (hnone : ∀ p, ¬ Candidate s.proc p) :
    s.dispatched fl draws =
      if (s.schedule fl draws).isSome then firstRunnable s.proc else none := by
  rw [dispatched, schedule]
  cases hc : levels fl s.ticks s.proc draws with
  | error e => rfl
  | ok c =>
    rcases levels_cases hc with ⟨q, -, hcand, -⟩ | ⟨-, hfirst, -⟩
    · exact absurd hcand (hnone q)
    · obtain ⟨_ | q, t, rest⟩ := c <;> exact hfirst

theorem length_turn {e : Event} (h : Steady K s e) :
    (turn fl s e).length = if (step fl s e).isSome then (pl2First s e).toNat else 0 := by
  cases e with
  | schedule draws =>
    rw [turn, State.dispatched_eq (Waiting.noPl1 h), pl2First, step]
    split
    · cases firstRunnable s.proc with
      | none => rfl
      | some p => by_cases hp : (s.proc p).priority = .pl2 <;> simp [hp]
    · rfl
  | _ => simp [turn, pl2First]

theorem length_turns (h : Machine.Meets (step fl) (Steady K) s es) :
    (turns fl s es).length = passes fl s es := by
  induction es generalizing s with
  | nil => rfl
  | cons e es ih =>
    rw [turns, passes, length_append, length_turn h.head]
    cases ht : step fl s e with
    | none => rfl
    | some t => exact congrArg _ (ih (h.tail ht))

theorem Waiting.eq_min (h : Waiting K s) (hK : K.Nonempty)
    (hdispatched : s.dispatched fl draws = some p) (hp : (s.proc p).priority = .pl2) :
    p = K.min' hK := by
  rw [State.dispatched_eq h.noPl1, Option.ite_none_right_eq_some] at hdispatched
  have hfirst := hdispatched.2
  have hrunnable := runnable_of_firstRunnable hfirst
  have hmin := ((h.mem_iff _).1 (K.min'_mem hK)).1
  refine le_antisymm ?_ (K.min'_le p ((h.mem_iff p).2 ⟨hrunnable, hp⟩))
  exact not_lt.1 fun hlt => met_of_firstRunnable hfirst _ hlt hmin

theorem eq_min_of_mem_turn {e : Event} (h : Steady K s e) (hK : K.Nonempty)
    (hp : p ∈ turn fl s e) : p = K.min' hK := by
  cases e with
  | schedule draws =>
    rw [turn, mem_filter, Option.mem_toList, decide_eq_true_iff] at hp
    exact Waiting.eq_min h hK hp.1 hp.2
  | _ => cases hp

theorem eq_min_of_mem_turns (h : Machine.Meets (step fl) (Steady K) s es) (hK : K.Nonempty)
    (hp : p ∈ turns fl s es) : p = K.min' hK := by
  induction es generalizing s with
  | nil => cases hp
  | cons e es ih =>
    rw [turns, mem_append] at hp
    rcases hp with hp | hp
    · exact eq_min_of_mem_turn h.head hK hp
    · cases ht : step fl s e with
      | none =>
        simp [ht] at hp
      | some t =>
        rw [ht] at hp
        exact ih (h.tail ht) hp

/-- Among any `K.card` consecutive entries of a list, each of `K` is found once. -/
def TakesTurns (K : Finset Slot) (ps : List Slot) : Prop :=
  ∀ i, i + K.card ≤ ps.length → ∀ p ∈ K, ((ps.drop i).take K.card).count p = 1

instance {ps : List Slot} : Decidable (TakesTurns K ps) :=
  decidable_of_iff (∀ i < ps.length + 1, i + K.card ≤ ps.length →
      ∀ p ∈ K, ((ps.drop i).take K.card).count p = 1)
    ⟨fun h i hi => h i (by omega) hi, fun h i _ hi => h i hi⟩

theorem window_eq {ps : List Slot} {m : Slot} {i k : ℕ} (h : ∀ p ∈ ps, p = m)
    (hi : i + k ≤ ps.length) : (ps.drop i).take k = List.replicate k m := by
  refine eq_replicate_iff.2 ⟨?_, fun p hp => h p ?_⟩
  · rw [length_take, length_drop]
    omega
  · exact mem_of_mem_drop (mem_of_mem_take hp)

/-- In a run in which the same processes wait at `PL2` whenever the scheduler makes a pass,
they take turns if and only if there is one of them, or the scheduler makes fewer passes than
there are of them at which the first runnable process of the table is at `PL2`. -/
theorem round_robin_iff (hK : K.Nonempty) (h : Machine.Meets (step fl) (Steady K) s es) :
    TakesTurns K (turns fl s es) ↔ K.card = 1 ∨ passes fl s es < K.card := by
  have hsame := fun p => eq_min_of_mem_turns (p := p) h hK
  rw [← length_turns h]
  constructor
  · intro hturns
    by_cases hlong : K.card ≤ (turns fl s es).length
    · have hcount := hturns 0 (by omega) (K.min' hK) (K.min'_mem hK)
      rw [window_eq hsame (by omega), count_replicate_self] at hcount
      exact .inl hcount
    · exact .inr (Nat.not_le.1 hlong)
  · intro hcard i hi p hp
    have hone : K.card = 1 := by omega
    obtain ⟨q, rfl⟩ := Finset.card_eq_one.1 hone
    obtain rfl := Finset.mem_singleton.1 hp
    rw [window_eq hsame hi, Finset.card_singleton, Finset.min'_singleton]
    simp

/-- `init` executes its program and forks, and the child executes one too while `init`
sleeps: two processes at `PL2`. -/
def twoAtPl2 : List Event :=
  [.allocproc, .forkStarts 0, .schedule [0], .exec 0, .allocproc, .forkStarts 1, .sleep 0,
    .schedule [0], .exec 1, .wakeup 0, .yield 1]

/-- While `init` alone is runnable it gets every turn. -/
theorem round_robin_iff_initAlone :
    ∃ s, Machine.run (step rationals) empty (twoAtPl2.take 4 ++ [.yield 0]) = some s ∧
      turns rationals s [.schedule [0], .yield 0, .tick, .schedule [0], .yield 0] = [0, 0] ∧
      TakesTurns {0} (turns rationals s
        [.schedule [0], .yield 0, .tick, .schedule [0], .yield 0]) := by
  obtain ⟨s, hs, hsteady, hturns⟩ :
      ∃ s, Machine.run (step rationals) empty (twoAtPl2.take 4 ++ [.yield 0]) = some s ∧
        Machine.Meets (step rationals) (Steady {0}) s
          [.schedule [0], .yield 0, .tick, .schedule [0], .yield 0] ∧
        turns rationals s [.schedule [0], .yield 0, .tick, .schedule [0], .yield 0] = [0, 0] := by
    decide +kernel
  exact ⟨s, hs, hturns,
    (round_robin_iff (Finset.singleton_nonempty 0) hsteady).2 (.inl (Finset.card_singleton 0))⟩

/-- Of two processes at `PL2` that both yield, the first is dispatched twice. -/
theorem first_process_keeps_its_turn :
    ∃ s, Machine.run (step rationals) empty twoAtPl2 = some s ∧
      Machine.Meets (step rationals) (Steady {0, 1}) s
        [.schedule [0], .yield 0, .tick, .schedule [0], .yield 0] ∧
      turns rationals s [.schedule [0], .yield 0, .tick, .schedule [0], .yield 0] = [0, 0] ∧
      ¬ TakesTurns {0, 1} (turns rationals s
        [.schedule [0], .yield 0, .tick, .schedule [0], .yield 0]) := by
  decide +kernel

end Xv6.Scheduler
