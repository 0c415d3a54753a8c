import Mathlib.Tactic.Linarith
import Xv6.Scheduler.Pass

/-!
# The lottery

`set_tickets` accepts every positive number, so the sum of the tickets can pass `RAND_MAX`.
The draw is defined exactly when the sum modulo `2 ^ 32` does not.

When the draw is defined, `random_at_most` returns each of the numbers from zero up to the
sum with the same frequency, one number more than there are tickets. The scan of the table
stops as soon as the running sum is not below the number, so the first process wins with
zero as well: it has the chance of one ticket more than it holds. The lottery is fair
exactly when there are not two processes to choose from.
-/

namespace Xv6.Scheduler

open PTable (Slot ProcState)
open Machine List Option BitVec Nat

variable {F : Type*} {fl : Floats F} {t : Table} {ticks : BitVec 32} {draws : List Draw}
  {c : Choice} {p q : Slot} {ps : List Slot} {winner sum : BitVec 32} {s s' : State}

/-- The draw of `sched_lottery` is well defined. -/
structure DrawDefined (t : Table) : Prop where
  range : 0 ≤ (ticketsSum t slots 0).toInt ∧ (ticketsSum t slots 0).toInt ≤ randMax.toInt
  bins : numBins (ticketsSum t slots 0) ≠ 0
  size : binSize (ticketsSum t slots 0) ≠ 0
  accepts : ∃ x, Accepts (ticketsSum t slots 0) x

theorem drawDefined_iff : DrawDefined t ↔ total t % 2 ^ 32 ≤ randMax.toNat := by
  have hsum := ticketsSum_slots (t := t)
  have hrand : randMax.toNat = 2 ^ 31 - 1 := by decide
  rw [← hsum, hrand]
  constructor
  · intro h
    have hrange := h.range.1
    rw [toInt_eq_toNat_cond] at hrange
    split at hrange
    · omega
    · have hlt := (ticketsSum t slots 0).isLt
      omega
  · intro h
    have hmax : (ticketsSum t slots 0).toNat < 2 ^ 31 := by omega
    have hint := toInt_eq_toNat_of_lt (x := ticketsSum t slots 0) (by omega)
    have hpos := binWidth_pos hmax
    refine ⟨⟨by omega, ?_⟩, numBins_ne_zero hmax, ?_, 0, ?_⟩
    · have hrandInt : randMax.toInt = 2 ^ 31 - 1 := by decide
      omega
    · intro hzero
      have hsize := binSize_toNat hmax
      rw [hzero] at hsize
      exact hpos.ne hsize
    · rw [accepts_iff_bin hmax]
      simp

def Funded (t : Table) : Prop := ∀ p, (t p).state ≠ .unused → 0 < (t p).tickets.toInt

theorem tickets_applyAging (x : Proc) : (x.applyAging ticks).tickets = x.tickets := by
  unfold Proc.applyAging
  split <;> rfl

theorem tickets_of_levels (h : levels fl ticks t draws = .ok c) (p : Slot) :
    (c.table p).tickets = (t p).tickets := by
  rcases levels_cases h with ⟨-, -, -, htable⟩ | ⟨-, -, htable⟩
  · rw [htable]
  · rw [htable, aged]
    split
    · exact tickets_applyAging _
    · rfl

theorem Funded.of_levels (h : Funded t) (hc : levels fl ticks t draws = .ok c) :
    Funded c.table := by
  intro p hp
  rw [state_of_levels hc] at hp
  rw [tickets_of_levels hc]
  exact h p hp

theorem Funded.setProc (h : Funded s.proc) {f : Proc → Proc}
    (hf : (f (s.proc p)).state ≠ .unused → 0 < (f (s.proc p)).tickets.toInt) :
    Funded (s.setProc p f).proc := by
  intro q hq
  by_cases hqp : q = p
  · subst hqp
    simp only [State.setProc, Function.update_self] at hq ⊢
    exact hf hq
  · simp only [State.setProc, Function.update_of_ne hqp] at hq ⊢
    exact h q hq

theorem Funded.move (h : Funded s.proc) {old new : ProcState} (hold : old ≠ .unused)
    (hs : s.move p old new = some s') : Funded s'.proc := by
  obtain ⟨hstate, rfl⟩ := ite_some_none_eq_some.1 hs
  exact h.setProc fun _ => h p (hstate ▸ hold)

theorem Funded.running (h : Funded s.proc) (hp : (s.proc p).state = .running) {f : Proc → Proc}
    (hf : (f (s.proc p)).tickets = (s.proc p).tickets) : Funded (s.setProc p f).proc :=
  h.setProc fun _ => hf ▸ h p (by simp [hp])

theorem Funded.step (h : Funded s.proc) {e : Event} (hs : step fl s e = some s') :
    Funded s'.proc := by
  cases e with
  | allocproc =>
    obtain ⟨p, -, rfl⟩ := map_eq_some_iff.1 hs
    exact h.setProc fun _ => (by decide : 0 < (10 : BitVec 32).toInt)
  | schedule draws =>
    rw [Scheduler.step, State.schedule] at hs
    split at hs
    · cases hs
    · rename_i p t rest hc
      cases hs
      have ht : Funded t := h.of_levels hc
      have hrun : (t p).state ≠ .unused := by
        have hstate : (t p).state = _ := state_of_levels hc p
        rw [hstate, runnable_of_found hc rfl]
        simp
      exact Funded.setProc (s := { s with proc := t }) ht fun _ => ht p hrun
    · rename_i t rest hc
      cases hs
      exact h.of_levels hc
  | exec p =>
    obtain ⟨hp, rfl⟩ := ite_some_none_eq_some.1 hs
    exact h.running hp rfl
  | setTickets p value =>
    rw [Scheduler.step, State.setTickets, ite_none_right_eq_some] at hs
    obtain ⟨-, hs⟩ := hs
    split at hs
    · cases hs
      exact h
    · rename_i hvalue
      cases hs
      exact h.setProc fun _ => Int.not_le.1 hvalue
  | setQueue p value =>
    rw [Scheduler.step, State.setQueue, ite_none_right_eq_some] at hs
    obtain ⟨hp, hs⟩ := hs
    split at hs
    · cases hs
      exact h.running hp rfl
    · cases hs
      exact h
  | tick =>
    cases hs
    exact h
  | _ => exact h.move (by decide) hs

/-- In every state that processes can reach, all tickets are positive, and the draw is
defined if and only if the tickets of the runnable processes at `PL1` come to at most
`RAND_MAX` modulo `2 ^ 32`. -/
theorem lottery_draw_defined_iff {es : List Event} (hrun : run (step fl) empty es = some s) :
    (∀ p, (s.proc p).state ≠ .unused → 0 < (s.proc p).tickets.toInt) ∧
      (DrawDefined s.proc ↔ total s.proc % 2 ^ 32 ≤ randMax.toNat) := by
  refine ⟨?_, drawDefined_iff⟩
  exact run_invariant (I := fun s => Funded s.proc) (fun _ hp => absurd rfl hp)
    (fun _ _ _ h hs => h.step hs) hrun

/-- Two processes of the first queue with `a` and `b` tickets. -/
def joinLottery (a b : BitVec 32) : List Event :=
  [.allocproc, .forkStarts 0, .allocproc, .forkStarts 1, .schedule [0], .schedule [0],
    .setQueue 0 0, .setTickets 0 a, .setQueue 1 0, .setTickets 1 b, .yield 0, .yield 1]

theorem lottery_draw_defined_iff_thirtyTickets :
    ∃ s, run (step rationals) empty (joinLottery 10 20) = some s ∧ total s.proc = 30 ∧
      DrawDefined s.proc := by
  obtain ⟨s, hs, htotal⟩ : ∃ s, run (step rationals) empty (joinLottery 10 20) = some s ∧
      total s.proc = 30 := by decide +kernel
  refine ⟨s, hs, htotal, (lottery_draw_defined_iff hs).2.2 ?_⟩
  rw [htotal]
  decide

/-- The sum is negative and the draw rejects every value. -/
theorem overbooked_draw_never_ends :
    ∃ s, run (step rationals) empty (joinLottery 0x7fffffff 1) = some s ∧
      (ticketsSum s.proc slots 0).toInt = -2 ^ 31 ∧
      ∀ x, ¬ Accepts (ticketsSum s.proc slots 0) x := by
  obtain ⟨s, hs, hsum⟩ : ∃ s, run (step rationals) empty (joinLottery 0x7fffffff 1) = some s ∧
      ticketsSum s.proc slots 0 = 0x80000000 := by decide +kernel
  refine ⟨s, hs, by rw [hsum]; decide, ?_⟩
  rw [hsum]
  exact not_accepts (by decide) (by decide)

section Fair

def before (t : Table) (p : Slot) : List Slot → ℕ
  | [] => 0
  | q :: ps =>
    if q = p then 0 else (if Candidate t q then (t q).tickets.toNat else 0) + before t p ps

theorem before_add_le (hp : p ∈ ps) (hc : Candidate t p) :
    before t p ps + (t p).tickets.toNat ≤ tickets t ps := by
  induction ps with
  | nil => cases hp
  | cons q ps ih =>
    rw [before, tickets_cons]
    by_cases hq : q = p
    · subst hq
      rw [if_pos rfl, if_pos hc]
      omega
    · have hmem : p ∈ ps := (mem_cons.1 hp).resolve_left fun h => hq h.symm
      have hrec := ih hmem
      rw [if_neg hq]
      omega

theorem slt_iff {a b : BitVec 32} (ha : a.toNat < 2 ^ 31) (hb : b.toNat < 2 ^ 31) :
    a.slt b = true ↔ a.toNat < b.toNat := by
  rw [slt_eq_decide, decide_eq_true_iff, toInt_eq_toNat_of_lt (by omega),
    toInt_eq_toNat_of_lt (by omega)]
  omega

/-- With which numbers a candidate wins. -/
theorem findWinner_eq_some (hps : ps.Nodup) (hfund : ∀ q, Candidate t q → 0 < (t q).tickets.toNat)
    (hsum : sum.toNat + tickets t ps < 2 ^ 31) (hw : winner.toNat < 2 ^ 31) (hp : p ∈ ps)
    (hc : Candidate t p) :
    findWinner t winner ps sum = some p ↔
      (before t p ps = 0 ∨ sum.toNat + before t p ps < winner.toNat) ∧
        winner.toNat ≤ sum.toNat + before t p ps + (t p).tickets.toNat := by
  induction ps generalizing sum with
  | nil => cases hp
  | cons q ps ih =>
    obtain ⟨hq, hps⟩ := nodup_cons.1 hps
    rw [tickets_cons] at hsum
    rw [findWinner_cons, before]
    by_cases hqc : Candidate t q
    · rw [if_pos hqc] at hsum ⊢
      have hadd : (sum + (t q).tickets).toNat = sum.toNat + (t q).tickets.toNat := by
        rw [toNat_add]
        exact mod_eq_of_lt (by omega)
      have hslt := slt_iff (a := sum + (t q).tickets) (b := winner) (by omega) hw
      by_cases hqp : q = p
      · subst hqp
        rw [if_pos rfl]
        by_cases hlt : sum.toNat + (t q).tickets.toNat < winner.toNat
        · rw [if_pos (hslt.2 (by omega))]
          refine iff_of_false (fun hfind => hq ?_) (by omega)
          exact mem_of_findWinner hfind
        · rw [if_neg fun h => hlt (by have := hslt.1 h; omega)]
          exact iff_of_true rfl ⟨.inl rfl, by omega⟩
      · have hmem : p ∈ ps := (mem_cons.1 hp).resolve_left fun h => hqp h.symm
        have hpos := hfund q hqc
        rw [if_neg hqp, if_pos hqc]
        by_cases hlt : sum.toNat + (t q).tickets.toNat < winner.toNat
        · rw [if_pos (hslt.2 (by omega)), ih hps (by omega) hmem, hadd]
          omega
        · rw [if_neg fun h => hlt (by have := hslt.1 h; omega)]
          refine iff_of_false (fun h => hqp (Option.some.inj h)) (by omega)
    · have hqp : q ≠ p := by
        rintro rfl
        exact hqc hc
      have hmem : p ∈ ps := (mem_cons.1 hp).resolve_left fun h => hqp h.symm
      rw [if_neg hqc] at hsum ⊢
      rw [if_neg hqp, if_neg hqc, zero_add]
      exact ih hps (by omega) hmem

/-- The first draws with which the lottery returns process `p`. -/
def wins (t : Table) (p : Slot) : ℕ :=
  ((Finset.range (2 ^ 31)).filter fun n =>
    (schedLottery t [BitVec.ofNat 31 n]).toOption = some (some p, [])).card

/-- The same number of wins for every ticket. -/
def Fair (t : Table) : Prop :=
  ∃ k : ℚ, ∀ p, Candidate t p → (wins t p : ℚ) = k * (t p).tickets.toNat

theorem card_quotients {n b lo hi : ℕ} (hb : 0 < b) (hn : hi * b ≤ n) :
    ((Finset.range n).filter fun x => lo ≤ x / b ∧ x / b < hi).card = (hi - lo) * b := by
  have hset : ((Finset.range n).filter fun x => lo ≤ x / b ∧ x / b < hi) =
      Finset.Ico (lo * b) (hi * b) := by
    ext x
    rw [Finset.mem_filter, Finset.mem_range, Finset.mem_Ico, Nat.le_div_iff_mul_le hb,
      Nat.div_lt_iff_lt_mul hb]
    exact ⟨fun h => h.2, fun h => ⟨Nat.lt_of_lt_of_le h.2 hn, h⟩⟩
  rw [hset, Nat.card_Ico, Nat.sub_mul]

theorem toNat_of_lt {n : ℕ} (hn : n < 2 ^ 31) : (BitVec.ofNat 31 n).toNat = n := by
  rw [toNat_ofNat]
  exact mod_eq_of_lt hn

variable (hfund : ∀ q, Candidate t q → 0 < (t q).tickets.toNat) (hsum : total t ≤ randMax.toNat)

include hsum in
theorem schedLottery_one {n : ℕ} (hn : n < 2 ^ 31) :
    (schedLottery t [BitVec.ofNat 31 n]).toOption =
      if n / binWidth (total t) ≤ total t then
        some (findWinner t (BitVec.ofNat 32 (n / binWidth (total t))) slots 0, [])
      else none := by
  have hT := ticketsSum_of_le hsum
  have hmax : (ticketsSum t slots 0).toNat < 2 ^ 31 := by
    rw [hT]
    exact lt_of_le_of_lt hsum (by decide)
  have hacc := accepts_iff_bin (x := BitVec.ofNat 31 n) hmax
  rw [hT, toNat_of_lt hn] at hacc
  rw [schedLottery, randomAtMost, if_neg (numBins_ne_zero hmax), randomLoop, randomLoop]
  by_cases hbin : n / binWidth (total t) ≤ total t
  · have hword : (BitVec.ofNat 31 n).setWidth 32 / binSize (ticketsSum t slots 0) =
        BitVec.ofNat 32 (n / binWidth (total t)) := by
      apply eq_of_toNat_eq
      rw [toNat_udiv, toNat_draw, toNat_of_lt hn, binSize_toNat hmax, hT,
        toNat_ofNat]
      have hle := div_le_self n (binWidth (total t))
      exact (mod_eq_of_lt (by omega)).symm
    rw [if_pos hbin, if_neg (hacc.2 hbin), hword]
    rfl
  · rw [if_neg hbin, if_pos (not_not.1 fun h => hbin (hacc.1 h))]
    rfl

include hfund hsum in
/-- A candidate wins with as many bins as it has tickets, and the first one with one more. -/
theorem wins_eq (hc : Candidate t p) :
    wins t p = ((t p).tickets.toNat + if before t p slots = 0 then 1 else 0) *
      binWidth (total t) := by
  have hrand : randMax.toNat = 2 ^ 31 - 1 := by decide
  have hpos := binWidth_pos (n := total t) (by omega)
  have hmem : p ∈ slots := mem_finRange p
  have hle : before t p slots + (t p).tickets.toNat ≤ total t := before_add_le hmem hc
  have hbins : (total t + 1) * binWidth (total t) ≤ 2 ^ 31 := mul_div_le _ _
  have hiff : ∀ n ∈ Finset.range (2 ^ 31),
      (schedLottery t [BitVec.ofNat 31 n]).toOption = some (some p, []) ↔
        (if before t p slots = 0 then 0 else before t p slots + 1) ≤ n / binWidth (total t) ∧
          n / binWidth (total t) < before t p slots + (t p).tickets.toNat + 1 := by
    intro n hn
    have hlt := Finset.mem_range.1 hn
    have hquot := div_le_self n (binWidth (total t))
    have hword : (BitVec.ofNat 32 (n / binWidth (total t))).toNat = n / binWidth (total t) := by
      rw [toNat_ofNat]
      exact mod_eq_of_lt (by omega)
    have hzero : (0 : BitVec 32).toNat = 0 := rfl
    have htickets : (0 : BitVec 32).toNat + tickets t slots < 2 ^ 31 := by
      rw [hzero, zero_add]
      exact lt_of_le_of_lt hsum (by decide)
    have hfind : findWinner t (BitVec.ofNat 32 (n / binWidth (total t))) slots 0 = some p ↔
        (before t p slots = 0 ∨ before t p slots < n / binWidth (total t)) ∧
          n / binWidth (total t) ≤ before t p slots + (t p).tickets.toNat := by
      rw [findWinner_eq_some (nodup_finRange nProc) hfund htickets (by omega) hmem hc, hword,
        hzero, zero_add]
    rw [schedLottery_one hsum hlt]
    by_cases hbin : n / binWidth (total t) ≤ total t
    · rw [if_pos hbin]
      simp only [Option.some.injEq, Prod.mk.injEq, and_true]
      rw [hfind]
      split <;> omega
    · rw [if_neg hbin]
      refine iff_of_false (by simp) ?_
      omega
  rw [wins, Finset.filter_congr hiff, card_quotients hpos (by
    exact le_trans (mul_le_mul_right _ (by omega)) hbins)]
  congr 1
  split <;> omega

/-- Of two candidates, one has tickets before it. -/
theorem eq_of_before_eq_zero (hfund : ∀ q, Candidate t q → 0 < (t q).tickets.toNat)
    (hp : p ∈ ps) (hq : q ∈ ps) (hpc : Candidate t p) (hqc : Candidate t q)
    (hp0 : before t p ps = 0) (hq0 : before t q ps = 0) : p = q := by
  induction ps with
  | nil => cases hp
  | cons r ps ih =>
    rw [before] at hp0 hq0
    by_cases hrp : r = p
    · by_cases hrq : r = q
      · exact hrp.symm.trans hrq
      · subst hrp
        have hpos := hfund r hpc
        rw [if_neg hrq, if_pos hpc] at hq0
        omega
    · by_cases hrq : r = q
      · subst hrq
        have hpos := hfund r hqc
        rw [if_neg hrp, if_pos hqc] at hp0
        omega
      · rw [if_neg hrp] at hp0
        rw [if_neg hrq] at hq0
        exact ih ((mem_cons.1 hp).resolve_left fun h => hrp h.symm)
          ((mem_cons.1 hq).resolve_left fun h => hrq h.symm) (by omega) (by omega)

theorem exists_before_eq_zero (hp : p ∈ ps) (hc : Candidate t p) :
    ∃ q ∈ ps, Candidate t q ∧ before t q ps = 0 := by
  induction ps with
  | nil => cases hp
  | cons r ps ih =>
    by_cases hr : Candidate t r
    · exact ⟨r, mem_cons_self, hr, if_pos rfl⟩
    · have hrp : r ≠ p := by
        rintro rfl
        exact hr hc
      obtain ⟨q, hq, hqc, hq0⟩ := ih ((mem_cons.1 hp).resolve_left fun h => hrp h.symm)
      refine ⟨q, mem_cons_of_mem r hq, hqc, ?_⟩
      have hrq : r ≠ q := by
        rintro rfl
        exact hr hqc
      rw [before, if_neg hrq, if_neg hr, hq0]

/-- When the candidates have positive numbers of tickets that come to at most `RAND_MAX`, the
lottery is fair if and only if there are not two of them. -/
theorem lottery_fair_iff (hfund : ∀ q, Candidate t q → 0 < (t q).tickets.toInt)
    (hsum : total t ≤ randMax.toNat) : Fair t ↔ ∀ p q, Candidate t p → Candidate t q → p = q := by
  have hfund : ∀ q, Candidate t q → 0 < (t q).tickets.toNat := by
    intro q hq
    have hint := hfund q hq
    by_contra hzero
    rw [toInt_eq_toNat_cond] at hint
    split at hint <;> omega
  have hpos : 0 < binWidth (total t) :=
    binWidth_pos (lt_of_le_of_lt hsum (by decide))
  constructor
  · rintro ⟨k, hk⟩ p q hp hq
    by_contra hne
    obtain ⟨f, -, hf, hf0⟩ := exists_before_eq_zero (mem_finRange p) hp
    -- One of the two is not the first candidate.
    obtain ⟨g, hg, hgf⟩ : ∃ g, Candidate t g ∧ g ≠ f := by
      by_cases hpf : p = f
      · exact ⟨q, hq, fun hqf => hne (hpf.trans hqf.symm)⟩
      · exact ⟨p, hp, hpf⟩
    have hg0 : before t g slots ≠ 0 := fun hg0 =>
      hgf (eq_of_before_eq_zero hfund (mem_finRange g) (mem_finRange f) hg hf hg0 hf0)
    have hwf := hk f hf
    have hwg := hk g hg
    rw [wins_eq hfund hsum hf, if_pos hf0] at hwf
    rw [wins_eq hfund hsum hg, if_neg hg0] at hwg
    push_cast at hwf hwg
    have htg : (0 : ℚ) < (t g).tickets.toNat := by exact_mod_cast hfund g hg
    have hb : (0 : ℚ) < binWidth (total t) := by exact_mod_cast hpos
    have hkb : k = binWidth (total t) := by
      have hmul : ((t g).tickets.toNat : ℚ) * k = (t g).tickets.toNat * binWidth (total t) := by
        linarith
      exact mul_left_cancel₀ htg.ne' hmul
    rw [hkb] at hwf
    linarith
  · intro hone
    by_cases hc : ∃ p, Candidate t p
    · obtain ⟨p, hp⟩ := hc
      have htp : ((t p).tickets.toNat : ℚ) ≠ 0 := by exact_mod_cast (hfund p hp).ne'
      refine ⟨wins t p / (t p).tickets.toNat, fun q hq => ?_⟩
      obtain rfl := hone p q hp hq
      exact (div_mul_cancel₀ _ htp).symm
    · exact ⟨0, fun p hp => absurd ⟨p, hp⟩ hc⟩

/-- One process of the first queue next to one of the second. -/
theorem lottery_fair_iff_oneProcess :
    Fair (twoProcs ⟨.runnable, .pl1, 1, 0, 0, 10⟩ ⟨.runnable, .pl2, 1, 0, 0, 10⟩) :=
  (lottery_fair_iff (by decide +kernel) (by decide +kernel)).2 (by decide +kernel)

/-- Two processes of the first queue with one ticket each. -/
def oneTicketEach : Table :=
  twoProcs ⟨.runnable, .pl1, 1, 0, 0, 1⟩ ⟨.runnable, .pl1, 1, 0, 0, 1⟩

/-- The first of the two has twice the chance of the other. -/
theorem first_process_wins_twice :
    (∀ p, Candidate oneTicketEach p → 0 < (oneTicketEach p).tickets.toInt) ∧
      total oneTicketEach ≤ randMax.toNat ∧
      wins oneTicketEach 0 = 2 * 715827882 ∧ wins oneTicketEach 1 = 715827882 ∧
      ¬ Fair oneTicketEach := by
  have hfund : ∀ q, Candidate oneTicketEach q → 0 < (oneTicketEach q).tickets.toNat := by
    decide +kernel
  have hsum : total oneTicketEach ≤ randMax.toNat := by decide +kernel
  have hwins0 : wins oneTicketEach 0 = 2 * 715827882 := by
    rw [wins_eq hfund hsum (by decide +kernel)]
    decide +kernel
  have hwins1 : wins oneTicketEach 1 = 715827882 := by
    rw [wins_eq hfund hsum (by decide +kernel)]
    decide +kernel
  refine ⟨by decide +kernel, hsum, hwins0, hwins1, ?_⟩
  rintro ⟨k, hk⟩
  have h0 := hk 0 (by decide +kernel)
  have h1 := hk 1 (by decide +kernel)
  have ht0 : (oneTicketEach 0).tickets.toNat = 1 := by decide +kernel
  have ht1 : (oneTicketEach 1).tickets.toNat = 1 := by decide +kernel
  rw [hwins0, ht0] at h0
  rw [hwins1, ht1] at h1
  push_cast at h0 h1
  linarith

end Fair

end Xv6.Scheduler
