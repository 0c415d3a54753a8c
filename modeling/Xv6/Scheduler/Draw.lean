import Mathlib.Order.Interval.Finset.Nat
import Xv6.Scheduler.Model

/-!
# The draw of the lottery

When the number that `random_at_most` is given lies in `[0, RAND_MAX]`, the values it
accepts are those below a multiple of the bin size, and it returns the number of their
bin. Otherwise it divides by zero or rejects every value.

The lottery gives it the sum of the tickets, which is exact only modulo `2 ^ 32`. The last
process that holds tickets brings the running sum to the same value, so that whenever the
draw returns, some process wins if there is one.
-/

namespace Xv6.Scheduler

open List Nat

open PTable (Slot)

variable {t : Table} {max winner sum : BitVec 32} {x : Draw} {draws rest : List Draw}
  {p q : Slot} {ps : List Slot}

/-- `random_at_most` returns at this value of `genrand`. -/
def Accepts (max : BitVec 32) (x : Draw) : Prop := ¬ numRand - defect max ≤ x.setWidth 32

instance : Decidable (Accepts max x) := inferInstanceAs (Decidable (¬ _))

def binWidth (n : ℕ) : ℕ := 2 ^ 31 / (n + 1)

theorem binWidth_pos {n : ℕ} (h : n < 2 ^ 31) : 0 < binWidth n :=
  div_pos h (succ_pos n)

theorem toNat_draw (x : Draw) : (x.setWidth 32).toNat = x.toNat := by
  rw [BitVec.toNat_setWidth]
  exact mod_eq_of_lt (lt_trans x.isLt (by decide))

section

variable (h : max.toNat < 2 ^ 31)
include h

theorem numBins_toNat : (numBins max).toNat = max.toNat + 1 := by
  rw [numBins, BitVec.toNat_add]
  exact mod_eq_of_lt (by simpa using lt_trans (succ_lt_succ h) (by decide))

theorem numBins_ne_zero : numBins max ≠ 0 := by
  intro hzero
  have hbins := numBins_toNat h
  rw [hzero] at hbins
  simp at hbins

theorem binSize_toNat : (binSize max).toNat = binWidth max.toNat := by
  rw [binSize, BitVec.toNat_udiv, numBins_toNat h]
  rfl

theorem limit_toNat : (numRand - defect max).toNat = (max.toNat + 1) * binWidth max.toNat := by
  have hdefect : (defect max).toNat = 2 ^ 31 % (max.toNat + 1) := by
    rw [defect, BitVec.toNat_umod, numBins_toNat h]
    rfl
  have hle : defect max ≤ numRand := by
    rw [BitVec.le_def, hdefect]
    exact mod_le _ _
  have hdiv := div_add_mod (2 ^ 31) (max.toNat + 1)
  have hrand : numRand.toNat = 2 ^ 31 := by decide
  rw [BitVec.toNat_sub_of_le hle, hdefect, hrand, binWidth]
  omega

theorem accepts_iff : Accepts max x ↔ x.toNat < (max.toNat + 1) * binWidth max.toNat := by
  rw [Accepts, BitVec.le_def, limit_toNat h, toNat_draw, not_le]

theorem accepts_iff_bin : Accepts max x ↔ x.toNat / binWidth max.toNat ≤ max.toNat := by
  rw [accepts_iff h, ← Nat.lt_succ_iff, Nat.div_lt_iff_lt_mul (binWidth_pos h)]

end

theorem not_accepts (h : 2 ^ 31 ≤ max.toNat) (hbins : numBins max ≠ 0) (x : Draw) :
    ¬ Accepts max x := by
  have hbig : 2 ^ 31 < (numBins max).toNat := by
    have hne : max.toNat + 1 ≠ 2 ^ 32 := by
      intro heq
      apply hbins
      apply BitVec.eq_of_toNat_eq
      rw [numBins, BitVec.toNat_add]
      simp [heq]
    have hone : (1 : BitVec 32).toNat = 1 := by decide
    rw [numBins, BitVec.toNat_add, hone]
    omega
  have hdefect : defect max = numRand := by
    apply BitVec.eq_of_toNat_eq
    rw [defect, BitVec.toNat_umod]
    exact mod_eq_of_lt hbig
  rw [Accepts, hdefect, BitVec.sub_self, not_not, BitVec.le_def]
  exact zero_le _

theorem randomLoop_ok (h : randomLoop max draws = .ok (winner, rest)) :
    ∃ x, Accepts max x ∧ winner = x.setWidth 32 / binSize max := by
  induction draws with
  | nil => cases h
  | cons x draws ih =>
    rw [randomLoop] at h
    split at h
    · exact ih h
    · rename_i hx
      obtain ⟨rfl, -⟩ := Prod.mk.inj (Except.ok.inj h)
      exact ⟨x, hx, rfl⟩

theorem randomLoop_returns : (∃ r, randomLoop max draws = .ok r) ↔ ∃ x ∈ draws, Accepts max x := by
  induction draws with
  | nil => simp [randomLoop]
  | cons x draws ih =>
    rw [randomLoop]
    split
    · rename_i hx
      have hrej : ¬ Accepts max x := fun hacc => hacc hx
      simp [ih, hrej]
    · rename_i hx
      have hacc : Accepts max x := hx
      simp [hacc]

theorem randomAtMost_ok (h : randomAtMost max draws = .ok (winner, rest)) :
    max.toNat < 2 ^ 31 ∧ winner.toNat ≤ max.toNat := by
  rw [randomAtMost] at h
  split at h
  · cases h
  · rename_i hbins
    obtain ⟨x, hx, rfl⟩ := randomLoop_ok h
    have hmax : max.toNat < 2 ^ 31 := by
      by_contra hbig
      exact not_accepts (not_lt.1 hbig) hbins x hx
    refine ⟨hmax, ?_⟩
    rw [BitVec.toNat_udiv, toNat_draw, binSize_toNat hmax]
    exact (accepts_iff_bin hmax).1 hx

/-- A process that takes part in the lottery. -/
def Candidate (t : Table) (p : Slot) : Prop :=
  (t p).state = .runnable ∧ (t p).priority = .pl1

instance : Decidable (Candidate t p) := inferInstanceAs (Decidable (_ ∧ _))

theorem ticketsSum_cons :
    ticketsSum t (p :: ps) sum =
      ticketsSum t ps (if Candidate t p then sum + (t p).tickets else sum) := by
  rw [ticketsSum]
  by_cases hprio : (t p).priority = .pl1
  · by_cases hstate : (t p).state = .runnable
    · simp [Candidate, hprio, hstate]
    · simp [Candidate, hprio, hstate]
  · simp [Candidate, hprio]

theorem findWinner_cons :
    findWinner t winner (p :: ps) sum =
      if Candidate t p then
        if (sum + (t p).tickets).slt winner then findWinner t winner ps (sum + (t p).tickets)
        else some p
      else findWinner t winner ps sum := by
  rw [findWinner]
  by_cases hstate : (t p).state = .runnable
  · by_cases hprio : (t p).priority = .pl1
    · simp [Candidate, hprio, hstate]
    · simp [Candidate, hprio, hstate]
  · simp [Candidate, hstate]

theorem ticketsSum_of_none (h : ∀ p ∈ ps, ¬ Candidate t p) : ticketsSum t ps sum = sum := by
  induction ps with
  | nil => rfl
  | cons p ps ih =>
    rw [ticketsSum_cons, if_neg (h p mem_cons_self)]
    exact ih fun q hq => h q (mem_cons_of_mem p hq)

theorem candidate_of_findWinner (h : findWinner t winner ps sum = some p) : Candidate t p := by
  induction ps generalizing sum with
  | nil => cases h
  | cons q ps ih =>
    rw [findWinner_cons] at h
    split at h
    · rename_i hq
      split at h
      · exact ih h
      · cases h
        exact hq
    · exact ih h

theorem mem_of_findWinner (h : findWinner t winner ps sum = some p) : p ∈ ps := by
  induction ps generalizing sum with
  | nil => cases h
  | cons q ps ih =>
    rw [findWinner_cons] at h
    split at h
    · split at h
      · exact mem_cons_of_mem q (ih h)
      · cases h
        exact mem_cons_self
    · exact mem_cons_of_mem q (ih h)

/-- Someone wins when the sum of all tickets is not below the winning number. -/
theorem findWinner_ne_none (hp : p ∈ ps) (hc : Candidate t p)
    (hw : (ticketsSum t ps sum).slt winner = false) : findWinner t winner ps sum ≠ none := by
  induction ps generalizing sum p with
  | nil => cases hp
  | cons q ps ih =>
    rw [ticketsSum_cons] at hw
    rw [findWinner_cons]
    by_cases hq : Candidate t q
    · rw [if_pos hq] at hw ⊢
      split
      · rename_i hlt
        by_cases hmore : ∃ r ∈ ps, Candidate t r
        · obtain ⟨r, hr, hrc⟩ := hmore
          exact ih hr hrc hw
        · -- The last candidate has brought the sum to its full value.
          rw [ticketsSum_of_none fun r hr hrc => hmore ⟨r, hr, hrc⟩] at hw
          simp [hw] at hlt
      · simp
    · rw [if_neg hq] at hw ⊢
      rcases mem_cons.1 hp with rfl | hp
      · exact absurd hc hq
      · exact ih hp hc hw

theorem slt_false_of_le (hmax : max.toNat < 2 ^ 31) (hw : winner.toNat ≤ max.toNat) :
    max.slt winner = false := by
  rw [BitVec.slt_eq_decide, decide_eq_false_iff_not, BitVec.toInt_eq_toNat_of_lt (by omega),
    BitVec.toInt_eq_toNat_of_lt (by omega)]
  omega

theorem schedLottery_ok {r : Option Slot} (h : schedLottery t draws = .ok (r, rest)) :
    (r = none ∧ ∀ p, ¬ Candidate t p) ∨ ∃ p, r = some p ∧ Candidate t p := by
  rw [schedLottery] at h
  split at h
  · rename_i w rest' hdraw
    obtain ⟨rfl, -⟩ := Prod.mk.inj (Except.ok.inj h)
    obtain ⟨hmax, hle⟩ := randomAtMost_ok hdraw
    cases hfind : findWinner t w slots 0 with
    | some p => exact .inr ⟨p, rfl, candidate_of_findWinner hfind⟩
    | none =>
      refine .inl ⟨rfl, ?_⟩
      intro p hp
      exact findWinner_ne_none (mem_finRange p) hp (slt_false_of_le hmax hle) hfind
  · cases h

/-- The tickets of the candidates of a list, as a number. -/
def tickets (t : Table) (ps : List Slot) : ℕ :=
  (ps.map fun p => if Candidate t p then (t p).tickets.toNat else 0).sum

def total (t : Table) : ℕ := tickets t slots

theorem tickets_cons :
    tickets t (p :: ps) = (if Candidate t p then (t p).tickets.toNat else 0) + tickets t ps :=
  sum_cons

theorem ticketsSum_toNat : (ticketsSum t ps sum).toNat = (sum.toNat + tickets t ps) % 2 ^ 32 := by
  induction ps generalizing sum with
  | nil => exact (mod_eq_of_lt sum.isLt).symm
  | cons p ps ih =>
    rw [ticketsSum_cons, ih, tickets_cons]
    by_cases hp : Candidate t p
    · rw [if_pos hp, if_pos hp, BitVec.toNat_add]
      omega
    · rw [if_neg hp, if_neg hp]
      omega

theorem ticketsSum_slots : (ticketsSum t slots 0).toNat = total t % 2 ^ 32 := by
  rw [ticketsSum_toNat]
  simp [total]

theorem ticketsSum_of_le (h : total t ≤ randMax.toNat) :
    (ticketsSum t slots 0).toNat = total t := by
  rw [ticketsSum_slots]
  exact mod_eq_of_lt (lt_of_le_of_lt h (by decide))

end Xv6.Scheduler
