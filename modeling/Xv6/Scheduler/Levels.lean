import Xv6.Scheduler.Draw

/-!
# One pass of the level loop

Two things can come of a pass whose draw returns. If a runnable process is at `PL1`, one
of these is chosen and the table stays as it is. Otherwise the second level takes the first
runnable process of the table, and has aged the processes up to it; the third level only
gets its turn when nothing is runnable, and then changes nothing. `levels_cases` is that,
and what follows is read off it: the loop finds a process whenever there is one, the order
of the queues is not kept between `PL2` and `PL3`, and aging depends on the place of a
process in the table instead of on its state.
-/

namespace Xv6.Scheduler

open List Table

open PTable (Slot ProcState)

variable {F : Type*} {fl : Floats F} {t : Table} {ticks : BitVec 32} {draws : List Draw}
  {c : Choice} {p q : Slot} {ps : List Slot}

theorem state_applyAging (x : Proc) : (x.applyAging ticks).state = x.state := by
  unfold Proc.applyAging
  split <;> rfl

theorem Table.age_self : t.age ticks p p = (t p).applyAging ticks := Function.update_self ..

theorem Table.age_of_ne (h : q ≠ p) : t.age ticks p q = t q := Function.update_of_ne h ..

theorem Table.age_state : (t.age ticks p q).state = (t q).state := by
  by_cases h : q = p
  · subst h
    rw [age_self, state_applyAging]
  · rw [age_of_ne h]

theorem Table.age_eq_self (h : (t p).applyAging ticks = t p) : t.age ticks p = t := by
  rw [age, h, Function.update_eq_self]

theorem applyAging_idem {x : Proc} (h : (x.applyAging ticks).priority = .pl3) :
    (x.applyAging ticks).applyAging ticks = x.applyAging ticks := by
  by_cases hold : 2500 < x.waiting ticks
  · simp [Proc.applyAging, if_pos hold] at h
  · have hsame : x.applyAging ticks = x := if_neg hold
    rw [hsame, hsame]

def passed (t : Table) : List Slot → List Slot
  | [] => []
  | p :: ps => if (t p).state = .runnable then [p] else p :: passed t ps

theorem passed_congr {t' : Table} (h : ∀ p, (t' p).state = (t p).state) :
    passed t' ps = passed t ps := by
  induction ps with
  | nil => rfl
  | cons p ps ih => rw [passed, passed, h, ih]

theorem mem_of_mem_passed (h : q ∈ passed t ps) : q ∈ ps := by
  induction ps with
  | nil => exact h
  | cons p ps ih =>
    rw [passed] at h
    split at h
    · rw [mem_singleton.1 h]
      exact mem_cons_self
    · rcases mem_cons.1 h with rfl | h
      · exact mem_cons_self
      · exact mem_cons_of_mem p (ih h)

/-- In a sorted list, a process is passed when no runnable one comes before it. -/
theorem mem_passed (hps : ps.Pairwise (· < ·)) :
    q ∈ passed t ps ↔ q ∈ ps ∧ ∀ r ∈ ps, r < q → (t r).state ≠ .runnable := by
  induction ps with
  | nil => simp [passed]
  | cons p ps ih =>
    obtain ⟨hlt, hps⟩ := pairwise_cons.1 hps
    have hhead : ∀ r ∈ p :: ps, ¬ r < p := by
      intro r hr hrp
      rcases mem_cons.1 hr with rfl | hr
      · exact lt_irrefl r hrp
      · exact lt_asymm (hlt r hr) hrp
    rw [passed]
    split
    · rename_i hp
      constructor
      · intro hq
        obtain rfl := mem_singleton.1 hq
        exact ⟨mem_cons_self, fun r hr hrq => absurd hrq (hhead r hr)⟩
      · rintro ⟨hq, hfirst⟩
        rcases mem_cons.1 hq with rfl | hq
        · exact mem_singleton.2 rfl
        · exact absurd hp (hfirst p mem_cons_self (hlt q hq))
    · rename_i hp
      rw [mem_cons, ih hps]
      constructor
      · rintro (rfl | ⟨hq, hfirst⟩)
        · exact ⟨mem_cons_self, fun r hr hrq => absurd hrq (hhead r hr)⟩
        · refine ⟨mem_cons_of_mem p hq, ?_⟩
          intro r hr hrq
          rcases mem_cons.1 hr with rfl | hr
          · exact hp
          · exact hfirst r hr hrq
      · rintro ⟨hq, hfirst⟩
        rcases mem_cons.1 hq with rfl | hq
        · exact .inl rfl
        · exact .inr ⟨hq, fun r hr => hfirst r (mem_cons_of_mem p hr)⟩

theorem scanRr_found : (scanRr ticks ps t).1 = ps.find? fun p => (t p).state = .runnable := by
  induction ps generalizing t with
  | nil => rfl
  | cons p ps ih =>
    rw [scanRr, age_state, List.find?_cons]
    by_cases hp : (t p).state = .runnable
    · simp [hp]
    · simp [hp, ih, age_state]

theorem scanRr_table (hps : ps.Nodup) (q : Slot) :
    (scanRr ticks ps t).2 q = if q ∈ passed t ps then (t q).applyAging ticks else t q := by
  induction ps generalizing t with
  | nil => rfl
  | cons p ps ih =>
    obtain ⟨hp, hps⟩ := nodup_cons.1 hps
    rw [scanRr, age_state, passed]
    split
    · by_cases hq : q = p
      · subst hq
        simp [age_self]
      · simp [hq, age_of_ne]
    · rw [ih hps, passed_congr fun r => age_state]
      by_cases hq : q = p
      · subst hq
        have hnot : q ∉ passed t ps := fun hmem => hp (mem_of_mem_passed hmem)
        simp [hnot, age_self]
      · simp [hq, age_of_ne]

/-- The third level finds nothing when nothing is runnable, and changes nothing when the
processes at `PL3` have been aged. -/
theorem scanHrrn_idle (hidle : ∀ p ∈ ps, (t p).state ≠ .runnable)
    (haged : ∀ p, (t p).priority = .pl3 → (t p).applyAging ticks = t p) :
    scanHrrn fl ticks ps t = (none, t) := by
  induction ps with
  | nil => rfl
  | cons p ps ih =>
    have hrest := ih fun q hq => hidle q (mem_cons_of_mem p hq)
    rw [scanHrrn]
    split
    · rename_i hp
      rw [age_eq_self (haged p hp), if_neg (hidle p mem_cons_self)]
      exact hrest
    · exact hrest

def firstRunnable (t : Table) : Option Slot := slots.find? fun p => (t p).state = .runnable

def Met (t : Table) (p : Slot) : Prop := ∀ q < p, (t q).state ≠ .runnable

instance : Decidable (Met t p) := inferInstanceAs (Decidable (∀ q < p, _))

theorem mem_passed_slots : p ∈ passed t slots ↔ Met t p := by
  rw [mem_passed (pairwise_lt_finRange nProc)]
  simp [Met, mem_finRange]

theorem firstRunnable_none (h : firstRunnable t = none) (p : Slot) : (t p).state ≠ .runnable := by
  have hp := List.find?_eq_none.1 h p (mem_finRange p)
  simpa using hp

theorem runnable_of_firstRunnable (h : firstRunnable t = some p) : (t p).state = .runnable := by
  simpa using List.find?_some h

theorem met_of_firstRunnable (h : firstRunnable t = some p) : Met t p := by
  rw [← mem_passed_slots]
  have hlist : ∀ ps : List Slot, ps.find? (fun p => (t p).state = .runnable) = some p →
      p ∈ passed t ps := by
    intro ps
    induction ps with
    | nil => simp
    | cons q ps ih =>
      intro hfind
      rw [List.find?_cons] at hfind
      rw [passed]
      by_cases hq : (t q).state = .runnable
      · simp only [hq, decide_true] at hfind
        cases hfind
        simp [hq]
      · simp only [hq, decide_false] at hfind
        simp [hq, ih hfind]
  exact hlist slots h

theorem not_met_of_runnable (hp : (t p).state = .runnable) (hpq : p < q) : ¬ Met t q :=
  fun h => h p hpq hp

def aged (ticks : BitVec 32) (t : Table) : Table :=
  fun p => if Met t p then (t p).applyAging ticks else t p

theorem schedRr_eq : schedRr ticks t = (firstRunnable t, aged ticks t) := by
  refine Prod.ext scanRr_found ?_
  funext p
  rw [schedRr, scanRr_table (nodup_finRange nProc)]
  simp only [mem_passed_slots, aged]

theorem state_aged : (aged ticks t p).state = (t p).state := by
  rw [aged]
  split
  · exact state_applyAging _
  · rfl

theorem levels_cases (h : levels fl ticks t draws = .ok c) :
    (∃ p, c.found = some p ∧ Candidate t p ∧ c.table = t) ∨
      ((∀ p, ¬ Candidate t p) ∧ c.found = firstRunnable t ∧ c.table = aged ticks t) := by
  rw [levels] at h
  split at h
  · cases h
  · rename_i p rest hlot
    obtain rfl := Except.ok.inj h
    rcases schedLottery_ok hlot with ⟨hnone, -⟩ | ⟨q, hq, hc⟩
    · cases hnone
    · cases hq
      exact .inl ⟨p, rfl, hc, rfl⟩
  · rename_i rest hlot
    rcases schedLottery_ok hlot with ⟨-, hnone⟩ | ⟨q, hq, -⟩
    · rw [schedRr_eq] at h
      refine .inr ⟨hnone, ?_⟩
      cases hfirst : firstRunnable t with
      | some p =>
        simp only [hfirst] at h
        obtain rfl := Except.ok.inj h
        exact ⟨rfl, rfl⟩
      | none =>
        simp only [hfirst] at h
        have hidle : ∀ p, (aged ticks t p).state ≠ .runnable := by
          intro p
          rw [state_aged]
          exact firstRunnable_none hfirst p
        have hhrrn : schedHrrn fl ticks (aged ticks t) = (none, aged ticks t) := by
          refine scanHrrn_idle (fun p _ => hidle p) fun p hp => ?_
          have hmet : Met t p := fun q _ => firstRunnable_none hfirst q
          rw [aged, if_pos hmet] at hp ⊢
          exact applyAging_idem hp
        rw [hhrrn] at h
        obtain rfl := Except.ok.inj h
        exact ⟨rfl, rfl⟩
    · cases hq

theorem levels_ok_iff :
    (∃ c, levels fl ticks t draws = .ok c) ↔
      ∃ r, randomAtMost (ticketsSum t slots 0) draws = .ok r := by
  constructor
  · rintro ⟨c, hc⟩
    rw [levels, schedLottery] at hc
    split at hc
    · cases hc
    all_goals
      rename_i hlot
      split at hlot
      · rename_i hdraw
        exact ⟨_, hdraw⟩
      · cases hlot
  · rintro ⟨⟨winner, rest⟩, hdraw⟩
    have hlot : schedLottery t draws = .ok (findWinner t winner slots 0, rest) := by
      rw [schedLottery, hdraw]
    rw [levels, hlot]
    cases findWinner t winner slots 0 with
    | some p => exact ⟨_, rfl⟩
    | none =>
      rw [schedRr_eq]
      cases firstRunnable t with
      | some p => exact ⟨_, rfl⟩
      | none => exact ⟨_, rfl⟩

end Xv6.Scheduler
