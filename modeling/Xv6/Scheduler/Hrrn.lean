import Mathlib.Algebra.Order.Field.Basic
import Mathlib.Algebra.Order.Ring.Rat
import Xv6.Scheduler.Pass

/-!
# The third level

`sched_hrrn` ages the processes at `PL3` that it meets, up to the first that is runnable, and
then takes the runnable process at `PL3` with the highest response ratio. The process that has
made it look may have been promoted by then; in that case another one is taken, or none. Ratios
are rational numbers here.
-/

namespace Xv6.Scheduler

open List

open PTable (Slot ProcState)

variable {t t' : Table} {ticks : BitVec 32} {p q : Slot}

section Victor

/-- A runnable process of the third queue. -/
def Contends (t : Table) (p : Slot) : Prop := (t p).state = .runnable ∧ (t p).priority = .pl3

instance : Decidable (Contends t p) := inferInstanceAs (Decidable (_ ∧ _))

def Proc.ratio (ticks : BitVec 32) (x : Proc) : ℚ :=
  ((ticks - x.arrivalTime).toInt : ℚ) / (x.clicks.toInt : ℚ)

def Best (ticks : BitVec 32) (t : Table) (seen : List Slot) (max : ℚ) : Option Slot → Prop
  | none => max = -1 ∧ ∀ q ∈ seen, ¬ Contends t q
  | some p => p ∈ seen ∧ Contends t p ∧ max = (t p).ratio ticks ∧
      ∀ q ∈ seen, Contends t q →
        (t q).ratio ticks ≤ (t p).ratio ticks ∧ (q < p → (t q).ratio ticks < (t p).ratio ticks)

variable {seen rest : List Slot} {max : ℚ} {best : Option Slot}

theorem Best.skip (h : Best ticks t seen max best) (hp : ¬ Contends t p) :
    Best ticks t (seen ++ [p]) max best := by
  cases best with
  | none =>
    obtain ⟨hmax, hnone⟩ := h
    refine ⟨hmax, fun q hq => ?_⟩
    rcases mem_append.1 hq with hq | hq
    · exact hnone q hq
    · rw [mem_singleton.1 hq]
      exact hp
  | some b =>
    obtain ⟨hin, hcont, hmax, hbest⟩ := h
    refine ⟨mem_append_left _ hin, hcont, hmax, fun q hq hq' => ?_⟩
    rcases mem_append.1 hq with hq | hq
    · exact hbest q hq hq'
    · rw [mem_singleton.1 hq] at hq'
      exact absurd hq' hp

theorem Best.lead (h : Best ticks t seen max best) (hp : Contends t p)
    (hgt : max < (t p).ratio ticks) : Best ticks t (seen ++ [p]) ((t p).ratio ticks) (some p) := by
  refine ⟨mem_append_right _ (mem_singleton_self p), hp, rfl, fun q hq hq' => ?_⟩
  rcases mem_append.1 hq with hq | hq
  · have hlt : (t q).ratio ticks < (t p).ratio ticks := by
      cases best with
      | none => exact absurd hq' (h.2 q hq)
      | some b =>
        obtain ⟨-, -, rfl, hbest⟩ := h
        exact lt_of_le_of_lt (hbest q hq hq').1 hgt
    exact ⟨le_of_lt hlt, fun _ => hlt⟩
  · rw [mem_singleton.1 hq]
    exact ⟨le_rfl, fun hlt => absurd hlt (lt_irrefl p)⟩

theorem Best.hold (h : Best ticks t seen max best) (hlater : ∀ q ∈ seen, q < p)
    (hle : (t p).ratio ticks ≤ max) (hpos : -1 < (t p).ratio ticks) :
    Best ticks t (seen ++ [p]) max best := by
  cases best with
  | none =>
    rw [h.1] at hle
    exact absurd hpos (not_lt_of_ge hle)
  | some b =>
    obtain ⟨hin, hcont, hmax, hbest⟩ := h
    refine ⟨mem_append_left _ hin, hcont, hmax, fun q hq hq' => ?_⟩
    rcases mem_append.1 hq with hq | hq
    · exact hbest q hq hq'
    · rw [mem_singleton.1 hq]
      exact ⟨hmax ▸ hle, fun hlt => absurd hlt (lt_asymm (hlater b hin))⟩

theorem victor_skip (hp : ¬ Contends t p) :
    victor rationals ticks t (p :: rest) max best = victor rationals ticks t rest max best :=
  if_neg hp

theorem victor_lead (hp : Contends t p) (hgt : max < (t p).ratio ticks) :
    victor rationals ticks t (p :: rest) max best =
      victor rationals ticks t rest ((t p).ratio ticks) (some p) :=
  (if_pos hp).trans (if_pos (decide_eq_true hgt))

theorem victor_hold (hp : Contends t p) (hle : (t p).ratio ticks ≤ max) :
    victor rationals ticks t (p :: rest) max best = victor rationals ticks t rest max best :=
  (if_pos hp).trans (if_neg fun hgt => not_lt_of_ge hle (of_decide_eq_true hgt))

theorem victor_best (hpos : ∀ q, Contends t q → -1 < (t q).ratio ticks)
    (hsorted : (seen ++ rest).Pairwise (· < ·)) (h : Best ticks t seen max best) :
    ∃ max', Best ticks t (seen ++ rest) max' (victor rationals ticks t rest max best) := by
  induction rest generalizing seen max best with
  | nil =>
    rw [append_nil]
    exact ⟨max, h⟩
  | cons p rest ih =>
    have hlater : ∀ q ∈ seen, q < p := by
      intro q hq
      exact (pairwise_append.1 hsorted).2.2 q hq p mem_cons_self
    rw [append_cons] at hsorted ⊢
    by_cases hcont : Contends t p
    · rcases lt_or_ge max ((t p).ratio ticks) with hgt | hle
      · rw [victor_lead hcont hgt]
        exact ih hsorted (h.lead hcont hgt)
      · rw [victor_hold hcont hle]
        exact ih hsorted (h.hold hlater hle (hpos p hcont))
    · rw [victor_skip hcont]
      exact ih hsorted (h.skip hcont)

end Victor

/-- Aging changes neither states nor ratios, and moves no process to the third queue. -/
structure Aged (ticks : BitVec 32) (t t' : Table) : Prop where
  state : ∀ q, (t' q).state = (t q).state
  ratio : ∀ q, (t' q).ratio ticks = (t q).ratio ticks
  queue : ∀ q, (t' q).priority = .pl3 → (t q).priority = .pl3

theorem Aged.refl (ticks : BitVec 32) (t : Table) : Aged ticks t t :=
  ⟨fun _ => rfl, fun _ => rfl, fun _ => id⟩

theorem Aged.trans {t'' : Table} (h : Aged ticks t t') (h' : Aged ticks t' t'') :
    Aged ticks t t'' :=
  ⟨fun q => (h'.state q).trans (h.state q), fun q => (h'.ratio q).trans (h.ratio q),
    fun q hq => h.queue q (h'.queue q hq)⟩

theorem Aged.contends (h : Aged ticks t t') (hq : Contends t' q) : Contends t q :=
  ⟨(h.state q).symm.trans hq.1, h.queue q hq.2⟩

theorem aged_age (t : Table) (p : Slot) : Aged ticks t (t.age ticks p) := by
  refine ⟨fun q => ?_, fun q => ?_, fun q hq => ?_⟩ <;> by_cases hqp : q = p
  · rw [hqp, Table.age_self, Proc.applyAging]
    split_ifs <;> rfl
  · rw [Table.age_of_ne hqp]
  · rw [hqp, Table.age_self, Proc.applyAging]
    split_ifs <;> rfl
  · rw [Table.age_of_ne hqp]
  · rw [hqp, Table.age_self, Proc.applyAging] at hq
    split_ifs at hq
    exact hqp ▸ hq
  · rwa [Table.age_of_ne hqp] at hq

/-- The outer loop, by induction on the slots that are left: it has looked for the victor in the
table that it leaves, or it has met no contender. -/
theorem scanHrrn_cases {F : Type*} (fl : Floats F) (ticks : BitVec 32) (ps : List Slot)
    (t : Table) :
    Aged ticks t (scanHrrn fl ticks ps t).2 ∧ ((scanHrrn fl ticks ps t).1 =
          victor fl ticks (scanHrrn fl ticks ps t).2 slots fl.minusOne none ∨
        (scanHrrn fl ticks ps t).1 = none ∧ ∀ q ∈ ps, ¬ Contends t q) := by
  induction ps generalizing t with
  | nil => exact ⟨Aged.refl ticks t, .inr ⟨rfl, fun q hq => absurd hq not_mem_nil⟩⟩
  | cons p ps ih =>
    have hage : Aged ticks t (t.age ticks p) := aged_age t p
    rw [scanHrrn]
    split_ifs with hpl3 hrun
    · exact ⟨hage, .inl rfl⟩
    · obtain ⟨haged, hcase⟩ := ih (t.age ticks p)
      refine ⟨hage.trans haged, hcase.imp_right fun hnone => ⟨hnone.1, fun q hq hcont => ?_⟩⟩
      by_cases hqp : q = p
      · subst hqp
        exact hrun ((hage.state q).trans hcont.1)
      · refine hnone.2 q ((mem_cons.1 hq).resolve_left hqp) ?_
        rw [Contends, Table.age_of_ne hqp]
        exact hcont
    · obtain ⟨haged, hcase⟩ := ih t
      refine ⟨haged, hcase.imp_right fun hnone => ⟨hnone.1, fun q hq hcont => ?_⟩⟩
      rcases mem_cons.1 hq with rfl | hq
      · exact hpl3 hcont.2
      · exact hnone.2 q hq hcont

theorem Proc.ratio_nonneg {x : Proc} (hclicks : 0 < x.clicks.toInt)
    (harrival : 0 ≤ (ticks - x.arrivalTime).toInt) : 0 ≤ x.ratio ticks :=
  div_nonneg (Int.cast_nonneg harrival) (Int.cast_nonneg (le_of_lt hclicks))

/-- `sched_hrrn` finds a process if and only if some process contends when it returns, and the
process is the first contender with the highest ratio. -/
theorem sched_hrrn_optimal (t : Table) (ticks : BitVec 32)
    (hclicks : ∀ p, Contends t p → 0 < (t p).clicks.toInt)
    (harrival : ∀ p, Contends t p → 0 ≤ (ticks - (t p).arrivalTime).toInt) :
    ((schedHrrn rationals ticks t).1.isSome = true ↔
      ∃ p, Contends (schedHrrn rationals ticks t).2 p) ∧
    ∀ p, (schedHrrn rationals ticks t).1 = some p → Contends (schedHrrn rationals ticks t).2 p ∧
      ∀ q, Contends (schedHrrn rationals ticks t).2 q →
        ((schedHrrn rationals ticks t).2 q).ratio ticks ≤
            ((schedHrrn rationals ticks t).2 p).ratio ticks ∧
          (q < p → ((schedHrrn rationals ticks t).2 q).ratio ticks <
            ((schedHrrn rationals ticks t).2 p).ratio ticks) := by
  obtain ⟨haged, hcase⟩ := scanHrrn_cases rationals ticks slots t
  rw [schedHrrn]
  generalize scanHrrn rationals ticks slots t = r at haged hcase ⊢
  have hpos : ∀ q, Contends r.2 q → -1 < (r.2 q).ratio ticks := by
    intro q hq
    have hq := haged.contends hq
    rw [haged.ratio]
    exact lt_of_lt_of_le (by decide) (Proc.ratio_nonneg (hclicks q hq) (harrival q hq))
  rcases hcase with hvictor | ⟨hnone, hfree⟩
  · have hstart : Best ticks r.2 [] (-1) none := ⟨rfl, fun q hq => absurd hq not_mem_nil⟩
    obtain ⟨max, hbest⟩ := victor_best hpos (pairwise_lt_finRange nProc) hstart
    have hbest : Best ticks r.2 slots max r.1 := hvictor ▸ hbest
    cases hfound : r.1 with
    | none =>
      rw [hfound] at hbest
      refine ⟨iff_of_false Bool.false_ne_true ?_,
        fun p hp => absurd hp (Option.some_ne_none p).symm⟩
      rintro ⟨q, hq⟩
      exact hbest.2 q (mem_finRange q) hq
    | some b =>
      rw [hfound] at hbest
      obtain ⟨-, hcont, -, hfirst⟩ := hbest
      refine ⟨iff_of_true rfl ⟨b, hcont⟩, fun p hp => ?_⟩
      cases hp
      exact ⟨hcont, fun q hq => hfirst q (mem_finRange q) hq⟩
  · have hfree : ∀ q, ¬ Contends r.2 q := fun q hq =>
      hfree q (mem_finRange q) (haged.contends hq)
    refine ⟨iff_of_false ?_ fun ⟨q, hq⟩ => hfree q hq, fun p hp => ?_⟩
    · rw [hnone]
      exact Bool.false_ne_true
    · simp [hnone] at hp

/-- The process that has waited longest for its turns is taken. -/
theorem sched_hrrn_optimal_two :
    ∃ p, (schedHrrn rationals 30
        (twoProcs ⟨.runnable, .pl3, 3, 0, 0, 10⟩ ⟨.runnable, .pl3, 1, 0, 10, 10⟩)).1 = some p ∧
      Contends (schedHrrn rationals 30
        (twoProcs ⟨.runnable, .pl3, 3, 0, 0, 10⟩ ⟨.runnable, .pl3, 1, 0, 10, 10⟩)).2 p := by
  have hfound : (schedHrrn rationals 30
      (twoProcs ⟨.runnable, .pl3, 3, 0, 0, 10⟩ ⟨.runnable, .pl3, 1, 0, 10, 10⟩)).1 = some 1 := by
    decide +kernel
  have hlaw := sched_hrrn_optimal
    (twoProcs ⟨.runnable, .pl3, 3, 0, 0, 10⟩ ⟨.runnable, .pl3, 1, 0, 10, 10⟩) 30
    (by decide +kernel) (by decide +kernel)
  exact ⟨1, hfound, (hlaw.2 1 hfound).1⟩

end Xv6.Scheduler
