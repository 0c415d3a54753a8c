import Xv6.SleepLock.Model

/-!
# Mutual exclusion and wakeups of a sleep lock

Three locks are in play, and each has its holder at certain points only: `lk->lk`,
`ptable.lock`, and the sleep lock itself, whose holder `locked` does not name. A process
that dozes is in `sleep`, or about to call it, and nobody has woken it up. The sleep
lock is taken then, or the process that has just freed it is about to call `wakeup`.
When `lk->lk` is free nobody is about to call `wakeup`.
-/

namespace Xv6.SleepLock

open Function Option State

variable {held : Bool}

@[simp] def Pc.inside : Pc → Bool
  | .testing _ | .sleepLock _ | .sleepRelease _ | .acquired | .clearing | .waking | .released
  | .checking _ | .checked _ _ => true
  | .out _ | .holding _ | .acquire _ | .sleepSet _ | .asleep _ | .sleepRelock _ | .release
  | .check _ => false

@[simp] def Pc.atTable : Pc → Bool
  | .sleepRelease _ | .sleepSet _ => true
  | .out _ | .holding _ | .acquire _ | .testing _ | .sleepLock _ | .asleep _ | .sleepRelock _
  | .acquired | .release | .clearing | .waking | .released | .check _ | .checking _
  | .checked _ _ => false

/-- The points from the end of the loop of `acquiresleep` to the store with which
`releasesleep` frees the sleep lock. -/
@[simp] def Pc.owns : Pc → Bool
  | .holding _ | .acquired | .release | .clearing => true
  | .acquire held | .testing held | .sleepLock held | .sleepRelease held | .sleepSet held
  | .asleep held | .sleepRelock held | .check held | .checking held | .checked held _ => held
  | .out _ | .waking | .released => false

@[simp] def Pc.dozes : Pc → Bool
  | .sleepLock _ | .sleepRelease _ | .sleepSet _ | .asleep _ => true
  | .out _ | .holding _ | .acquire _ | .testing _ | .sleepRelock _ | .acquired | .release
  | .clearing | .waking | .released | .check _ | .checking _ | .checked _ _ => false

theorem Pc.dozes_cases {c : Pc} (hc : c.dozes = true) :
    c.inside = true ∨ c.atTable = true ∨ ∃ held, c = .asleep held := by
  cases c with
  | sleepLock held => exact .inl rfl
  | sleepRelease held => exact .inl rfl
  | sleepSet held => exact .inr (.inl rfl)
  | asleep held => exact .inr (.inr ⟨held, rfl⟩)
  | _ => cases hc

theorem Pc.enter_outside {a c : Pc} {cl : Call} (h : a.enter cl = some c) :
    (a.inside = false ∧ a.atTable = false) ∧ (c.inside = false ∧ c.atTable = false) ∧
      c.owns = a.owns ∧ c.dozes = false ∧ a ≠ .waking ∧ ∀ held, a ≠ .asleep held := by
  cases a with
  | out r =>
    cases cl with
    | acquiresleep => cases h; simp
    | releasesleep => cases h
    | holdingsleep => cases h; simp
  | holding r => cases cl <;> cases h <;> simp
  | _ => cases h

variable {P : Type*} {pid : P → ℤ} {s t : State P} {p q : P} {c : Pc}

def State.Dozes (s : State P) (q : P) : Prop :=
  (s.pc q).dozes = true ∧ ∀ held, s.pc q = .asleep held → (s.proc q).state = .sleeping

/-- The sleep lock has a holder exactly when it is locked, and `lk->pid` is its pid. -/
structure Owned (pid : P → ℤ) (s : State P) (holder : Option P) : Prop where
  guards : Mutex.Guards holder Pc.owns s.pc
  locked : s.lk.locked = holder.isSome
  pid : ∀ p, holder = some p → s.lk.pid = pid p

/-- What holds in every run. -/
structure Inv (pid : P → ℤ) (s : State P) : Prop where
  lock : Mutex.Guards s.lock Pc.inside s.pc
  ptable : Mutex.Guards s.ptable Pc.atTable s.pc
  owned : ∃ holder, Owned pid s holder
  /-- Who sleeps is asleep in `acquiresleep`. -/
  asleep : ∀ q, (s.proc q).state = .sleeping →
    (∃ held, s.pc q = .asleep held) ∧ (s.proc q).chan = some .lk
  /-- Who dozes waits for a holder, or is about to be woken up. -/
  watched : ∀ q, s.Dozes q → s.lk.locked = true ∨ ∃ p, s.pc p = .waking

theorem inv_initsleeplock : Inv pid (initsleeplock P) := by
  refine ⟨fun p => ?_, fun p => ?_, ⟨none, fun p => ?_, rfl, fun p hp => ?_⟩, fun q hq => ?_,
    fun q hq => ?_⟩
  · simp [initsleeplock]
  · simp [initsleeplock]
  · simp [initsleeplock]
  · cases hp
  · cases hq
  · cases hq.1

theorem Owned.eq_of_owns {holder : Option P} (h : Owned pid s holder)
    (hp : (s.pc p).owns = true) : holder = some p ∧ s.lk.locked = true ∧ s.lk.pid = pid p := by
  have hholder := (h.guards p).2 hp
  refine ⟨hholder, ?_, h.pid p hholder⟩
  rw [h.locked, hholder]
  rfl

variable [DecidableEq P]

theorem Owned.stay {holder : Option P} (h : Owned pid s holder) (hpc : t.pc = update s.pc p c)
    (hlk : t.lk = s.lk) (hc : c.owns = (s.pc p).owns) : Owned pid t holder := by
  refine ⟨?_, ?_, ?_⟩
  · rw [hpc]
    exact h.guards.stay hc
  · rw [hlk]
    exact h.locked
  · rw [hlk]
    exact h.pid

theorem Owned.take {holder : Option P} (h : Owned pid s holder) (hfree : s.lk.locked = false)
    (hpc : t.pc = update s.pc p c) (hlk : t.lk = ⟨true, pid p⟩)
    (hc : c.owns = true) : Owned pid t (some p) := by
  have hnone : holder = none := by
    rw [h.locked] at hfree
    exact isSome_eq_false_iff.1 hfree |> isNone_iff_eq_none.1
  subst hnone
  refine ⟨?_, ?_, ?_⟩
  · rw [hpc]
    exact h.guards.take hc
  · rw [hlk]
    rfl
  · intro q hq
    rw [hlk, Option.some.inj hq]

theorem Owned.give {holder : Option P} (h : Owned pid s holder) (hp : (s.pc p).owns = true)
    (hpc : t.pc = update s.pc p c) (hlk : t.lk = ⟨false, 0⟩)
    (hc : c.owns = false) : Owned pid t none := by
  refine ⟨?_, ?_, fun q hq => ?_⟩
  · rw [hpc]
    exact h.guards.give hp hc
  · rw [hlk]
    rfl
  · cases hq

theorem Inv.asleep_update (h : Inv pid s) (hp : ∀ held, s.pc p ≠ .asleep held)
    (hq : (s.proc q).state = .sleeping) :
    (∃ held, update s.pc p c q = .asleep held) ∧ (s.proc q).chan = some .lk := by
  obtain ⟨⟨held, hheld⟩, hchan⟩ := h.asleep q hq
  refine ⟨⟨held, ?_⟩, hchan⟩
  rw [update_of_ne]
  · exact hheld
  · rintro rfl
    exact hp held hheld

theorem waking_update {pc : P → Pc} (hp : pc p ≠ .waking) (h : ∃ r, pc r = .waking) :
    ∃ r, update pc p c r = .waking := by
  obtain ⟨r, hr⟩ := h
  refine ⟨r, ?_⟩
  rw [update_of_ne]
  · exact hr
  · rintro rfl
    exact hp hr

section

variable (h : Inv pid s)
include h

/-- A process goes from `a` to `c` without a change of the sleep lock or of the states.
It dozes there if it did so before or if the sleep lock is locked. -/
theorem Inv.move {a : Pc} (hp : s.pc p = a) (hpc : t.pc = update s.pc p c) (hproc : t.proc = s.proc)
    (hlk : t.lk = s.lk) (hlock : Mutex.Guards t.lock Pc.inside t.pc)
    (htable : Mutex.Guards t.ptable Pc.atTable t.pc) (howns : c.owns = a.owns)
    (hwaking : a ≠ .waking) (hasleep : ∀ held, a ≠ .asleep held)
    (hdozes : c.dozes = true → a.dozes = true ∨ s.lk.locked = true) : Inv pid t := by
  obtain ⟨holder, hholder⟩ := h.owned
  have hother : ∀ q, q ≠ p → t.pc q = s.pc q := fun q hq => by
    rw [hpc, update_of_ne hq]
  refine ⟨hlock, htable, ⟨holder, hholder.stay hpc hlk (hp ▸ howns)⟩, fun q hq => ?_,
    fun q hq => ?_⟩
  · rw [hproc] at hq ⊢
    rw [hpc]
    exact h.asleep_update (hp ▸ hasleep) hq
  · rw [hlk]
    have hold : s.Dozes q ∨ s.lk.locked = true := by
      by_cases hqp : q = p
      · have hc := hq.1
        rw [hqp, hpc, update_self] at hc
        refine (hdozes hc).imp_left fun ha => ⟨?_, fun held hheld => ?_⟩
        · rwa [hqp, hp]
        · rw [hqp, hp] at hheld
          exact absurd hheld (hasleep held)
      · obtain ⟨hc, hstate⟩ := hq
        rw [hother q hqp] at hc hstate
        rw [hproc] at hstate
        exact .inl ⟨hc, hstate⟩
    rcases hold with hold | hlocked
    · rw [hpc]
      exact (h.watched q hold).imp_right (waking_update (hp ▸ hwaking))
    · exact .inl hlocked

omit [DecidableEq P] in
theorem wakeup1_state_ne (q : P) : (s.wakeup1.proc q).state ≠ .sleeping := by
  intro hq
  simp only [wakeup1] at hq
  split at hq
  · cases hq
  · rename_i hno
    exact hno ⟨hq, (h.asleep q hq).2⟩

theorem Inv.takes (hp : s.pc p = .testing held) (hfree : s.lk.locked = false) :
    Inv pid ({ s with lk := { locked := true, pid := pid p } }.goto p .acquired) := by
  obtain ⟨holder, hholder⟩ := h.owned
  refine ⟨h.lock.stay (by simp [hp]), h.ptable.stay (by simp [hp]),
    ⟨some p, hholder.take hfree rfl rfl rfl⟩, fun q hq => ?_, fun _ _ => .inl rfl⟩
  exact h.asleep_update (by simp [hp]) hq

theorem Inv.clearing (hp : s.pc p = .clearing) :
    Inv pid ({ s with lk := { locked := false, pid := 0 } }.goto p .waking) := by
  obtain ⟨holder, hholder⟩ := h.owned
  refine ⟨h.lock.stay (by simp [hp]), h.ptable.stay (by simp [hp]),
    ⟨none, hholder.give (p := p) (by simp [hp]) rfl rfl rfl⟩, fun q hq => ?_,
    fun _ _ => .inr ⟨p, by simp [goto]⟩⟩
  exact h.asleep_update (by simp [hp]) hq

/-- After the `wakeup` nobody dozes: those before `sleep` would hold `lk->lk`, those in it
`ptable.lock`, and those who were asleep are runnable. -/
theorem Inv.wakeup (hp : s.pc p = .waking) (hfree : s.ptable = none) :
    Inv pid (s.wakeup1.goto p .released) := by
  obtain ⟨holder, hholder⟩ := h.owned
  refine ⟨h.lock.stay (by simp [hp]), h.ptable.stay (by simp [hp]),
    ⟨holder, hholder.stay rfl rfl (by simp [hp])⟩,
    fun q hq => absurd hq (wakeup1_state_ne h q), fun q hq => ?_⟩
  exfalso
  have hqp : q ≠ p := by
    rintro rfl
    have hdozes := hq.1
    simp [goto] at hdozes
  obtain ⟨hdozes, hasleep⟩ := hq
  simp only [goto, update_of_ne hqp] at hdozes hasleep
  rcases Pc.dozes_cases hdozes with hin | hat | ⟨held, hheld⟩
  · exact hqp (h.lock.eq hin (by simp [hp]))
  · have hguards := h.ptable
    rw [hfree] at hguards
    exact absurd ((hguards.outside q).symm.trans hat) Bool.false_ne_true
  · exact wakeup1_state_ne h q (hasleep held hheld)

theorem Inv.sleepSet (hp : s.pc p = .sleepSet held) :
    Inv pid (({ s with ptable := none }.setProc p
      { s.proc p with chan := some .lk, state := .sleeping }).goto p (.asleep held)) := by
  obtain ⟨holder, hholder⟩ := h.owned
  refine ⟨h.lock.stay (by simp [hp]), h.ptable.give (p := p) (by simp [hp]) rfl,
    ⟨holder, hholder.stay rfl rfl (by simp [hp])⟩, fun q hq => ?_, fun q hq => ?_⟩
  · by_cases hqp : q = p
    · subst hqp
      simp [goto, setProc]
    · simp only [goto, setProc, update_of_ne hqp] at hq ⊢
      exact h.asleep q hq
  · have hold : s.Dozes q := by
      by_cases hqp : q = p
      · rw [hqp]
        refine ⟨by simp [hp], fun held' hheld => ?_⟩
        simp [hp] at hheld
      · simpa only [Dozes, goto, setProc, update_of_ne hqp] using hq
    exact (h.watched q hold).imp_right (waking_update (by simp [setProc, hp]))

theorem Inv.resume (hp : s.pc p = .asleep held) :
    Inv pid ((s.setProc p { s.proc p with chan := none, state := .running }).goto p
      (.sleepRelock held)) := by
  obtain ⟨holder, hholder⟩ := h.owned
  refine ⟨h.lock.stay (by simp [hp]), h.ptable.stay (by simp [hp]),
    ⟨holder, hholder.stay rfl rfl (by simp [hp])⟩, fun q hq => ?_, fun q hq => ?_⟩
  · have hqp : q ≠ p := by
      rintro rfl
      simp [goto, setProc] at hq
    simp only [goto, setProc, update_of_ne hqp] at hq ⊢
    exact h.asleep q hq
  · have hqp : q ≠ p := by
      rintro rfl
      have hdozes := hq.1
      simp [goto] at hdozes
    simp only [Dozes, goto, setProc, update_of_ne hqp] at hq
    exact (h.watched q hq).imp_right (waking_update (by simp [setProc, hp]))

theorem Inv.kill (p : P) : Inv pid (s.kill p) := by
  have hproc : ∀ q, ((s.kill p).proc q).state = .sleeping → (s.kill p).proc q = s.proc q := by
    intro q hq
    by_cases hqp : q = p
    · subst hqp
      simp only [State.kill, State.setProc, update_self] at hq
      split at hq
      · cases hq
      · contradiction
    · simp [State.kill, State.setProc, hqp]
  obtain ⟨holder, hholder⟩ := h.owned
  refine ⟨h.lock, h.ptable, ⟨holder, hholder.guards, hholder.locked, hholder.pid⟩,
    fun q hq => ?_, fun q hq => ?_⟩
  · have heq := hproc q hq
    rw [heq] at hq ⊢
    exact h.asleep q hq
  · refine h.watched q ⟨hq.1, fun held hheld => ?_⟩
    have hstate := hq.2 held hheld
    rwa [hproc q hstate] at hstate

theorem Inv.takeLock {a : Pc} (hp : s.pc p = a) (hfree : s.lock = none) (hc : c.inside = true)
    (htable : c.atTable = a.atTable) (howns : c.owns = a.owns) (hwaking : a ≠ .waking)
    (hasleep : ∀ held, a ≠ .asleep held) (hdozes : c.dozes = false) :
    Inv pid ({ s with lock := some p }.goto p c) := by
  have hlock := h.lock
  rw [hfree] at hlock
  exact h.move hp rfl rfl rfl (hlock.take hc) (h.ptable.stay (hp ▸ htable)) howns hwaking hasleep
    fun hd => Bool.noConfusion (hdozes.symm.trans hd)

theorem Inv.giveLock {a : Pc} (hp : s.pc p = a) (ha : a.inside = true) (hc : c.inside = false)
    (htable : c.atTable = a.atTable) (howns : c.owns = a.owns) (hwaking : a ≠ .waking)
    (hasleep : ∀ held, a ≠ .asleep held) (hdozes : c.dozes = a.dozes) :
    Inv pid ({ s with lock := none }.goto p c) :=
  h.move hp rfl rfl rfl (h.lock.give (hp ▸ ha) hc) (h.ptable.stay (hp ▸ htable)) howns hwaking
    hasleep fun hd => .inl (hdozes.symm.trans hd)

theorem Inv.run (hrun : s.run pid p = some t) : Inv pid t := by
  rw [State.run] at hrun
  split at hrun
  case h_1 | h_2 => cases hrun
  case h_3 hp | h_9 hp | h_11 hp | h_15 hp =>
    obtain ⟨hfree, rfl⟩ := ite_some_none_eq_some.1 hrun
    exact h.takeLock hp hfree rfl rfl rfl (by simp) (by simp) rfl
  case h_4 held hp =>
    split at hrun
    · rename_i hlocked
      cases hrun
      exact h.move hp rfl rfl rfl (h.lock.stay (by simp [hp])) (h.ptable.stay (by simp [hp])) rfl
        (by simp) (by simp) fun _ => .inr hlocked
    · rename_i hlocked
      cases hrun
      exact h.takes hp (eq_false_of_ne_true hlocked)
  case h_5 held hp =>
    obtain ⟨hfree, rfl⟩ := ite_some_none_eq_some.1 hrun
    have htable := h.ptable
    rw [hfree] at htable
    exact h.move hp rfl rfl rfl (h.lock.stay (by simp [hp])) (htable.take rfl) rfl (by simp)
      (by simp) (by simp)
  case h_6 hp | h_10 hp | h_14 hp =>
    cases hrun
    exact h.giveLock hp rfl rfl rfl rfl (by simp) (by simp) rfl
  case h_7 held hp =>
    cases hrun
    exact h.sleepSet hp
  case h_8 held hp =>
    obtain ⟨-, rfl⟩ := ite_some_none_eq_some.1 hrun
    exact h.resume hp
  case h_12 hp =>
    cases hrun
    exact h.clearing hp
  case h_13 hp =>
    obtain ⟨hfree, rfl⟩ := ite_some_none_eq_some.1 hrun
    exact h.wakeup hp hfree
  case h_16 held hp =>
    cases hrun
    exact h.move hp rfl rfl rfl (h.lock.stay (by simp [hp])) (h.ptable.stay (by simp [hp])) rfl
      (by simp) (by simp) (by simp)
  case h_17 held r hp =>
    cases hrun
    cases held <;> exact h.giveLock hp rfl rfl rfl rfl (by simp) (by simp) rfl

end

theorem step_inv (e : Event P) (h : Inv pid s) (hstep : step pid s e = some t) : Inv pid t := by
  cases e with
  | call p cl =>
    obtain ⟨c, hc, rfl⟩ := map_eq_some_iff.1 hstep
    obtain ⟨⟨hin, hat⟩, ⟨hcin, hcat⟩, howns, hdozes, hwaking, hasleep⟩ := Pc.enter_outside hc
    refine h.move rfl rfl rfl rfl (h.lock.stay (hcin.trans hin.symm))
      (h.ptable.stay (hcat.trans hat.symm)) howns hwaking hasleep ?_
    rw [hdozes]
    intro hfalse
    cases hfalse
  | run p => exact h.run hstep
  | kill p =>
    obtain ⟨-, rfl⟩ := ite_some_none_eq_some.1 hstep
    exact h.kill p

theorem inv_of_run {es : List (Event P)}
    (hrun : Machine.run (step pid) (initsleeplock P) es = some s) : Inv pid s :=
  Machine.run_invariant inv_initsleeplock (fun _ e _ h hstep => step_inv e h hstep) hrun

/-- `holdingsleep` answers whether its caller has the sleep lock, if no two processes have
one pid. -/
theorem holdingsleep_answers {es : List (Event P)} (hpid : Injective pid)
    (hrun : Machine.run (step pid) (initsleeplock P) es = some s) (hp : s.pc p = .checking held) :
    step pid s (.run p) = some (s.goto p (.checked held held)) := by
  obtain ⟨holder, hholder⟩ := (inv_of_run hrun).owned
  have hanswer : (s.lk.locked && decide (s.lk.pid = pid p)) = held := by
    cases held with
    | true =>
      obtain ⟨-, hlocked, heq⟩ := hholder.eq_of_owns (p := p) (by simp [hp])
      simp [hlocked, heq]
    | false =>
      cases holder with
      | none => simp [hholder.locked]
      | some q =>
        have hqp : q ≠ p := by
          rintro rfl
          have howns := (hholder.guards q).1 rfl
          simp [hp] at howns
        simp [hholder.pid q rfl, hpid.ne hqp]
  simp only [step, run, hp, hanswer]

/-- Process 1 goes to sleep while process 0 has the sleep lock, and has it after process 0
has released it. -/
def handover : List (Event (Fin 2)) :=
  .call 0 .acquiresleep :: List.replicate 3 (.run 0) ++
    .call 1 .acquiresleep :: List.replicate 5 (.run 1) ++
    .call 0 .releasesleep :: List.replicate 4 (.run 0) ++ List.replicate 4 (.run 1)

def twoPids (p : Fin 2) : ℤ := p.val + 1

theorem holdingsleep_answers_handover :
    (∃ s, Machine.run (step twoPids) (initsleeplock (Fin 2))
        (handover ++ [.call 0 .holdingsleep, .run 0]) = some s ∧
      step twoPids s (.run 0) = some (s.goto 0 (.checked false false))) ∧
    ∃ s, Machine.run (step twoPids) (initsleeplock (Fin 2))
        (handover ++ [.call 1 .holdingsleep, .run 1]) = some s ∧
      step twoPids s (.run 1) = some (s.goto 1 (.checked true true)) := by
  have hpid : Injective twoPids := fun p q h => by
    simp only [twoPids] at h
    omega
  have hrun : ∀ p : Fin 2, ∃ s, Machine.run (step twoPids) (initsleeplock (Fin 2))
      (handover ++ [.call p .holdingsleep, .run p]) = some s ∧
        s.pc p = .checking (decide (p = 1)) := by decide +kernel
  obtain ⟨s, hs, hd⟩ := hrun 0
  obtain ⟨t, ht, hd'⟩ := hrun 1
  exact ⟨⟨s, hs, holdingsleep_answers hpid hs hd⟩, t, ht, holdingsleep_answers hpid ht hd'⟩

/-- At most one process is between an `acquiresleep` and the `releasesleep` that follows
it, and `lk->pid` is its pid. When `lk->lk` and `ptable.lock` are free and the sleep lock
is not locked, nobody sleeps on it. -/
theorem sleeplock_excludes {es : List (Event P)}
    (hrun : Machine.run (step pid) (initsleeplock P) es = some s) :
    (∀ p q, (s.pc p).owns = true → (s.pc q).owns = true → p = q) ∧
      (∀ p, (s.pc p).owns = true → s.lk.locked = true ∧ s.lk.pid = pid p) ∧
      (s.lock = none → s.ptable = none → s.lk.locked = false →
        ∀ q, ¬ ((s.proc q).state = .sleeping ∧ (s.proc q).chan = some .lk)) := by
  have h := inv_of_run hrun
  obtain ⟨holder, hholder⟩ := h.owned
  refine ⟨fun p q hp hq => hholder.guards.eq hp hq,
    fun p hp => (hholder.eq_of_owns hp).2, fun hlock _ hfree q hq => ?_⟩
  obtain ⟨⟨held, hheld⟩, -⟩ := h.asleep q hq.1
  have hdozes : s.Dozes q := ⟨by simp [hheld], fun _ _ => hq.1⟩
  rcases h.watched q hdozes with hlocked | ⟨p, hp⟩
  · exact absurd (hfree.symm.trans hlocked) Bool.false_ne_true
  · -- who is about to call `wakeup` holds `lk->lk`
    have hguards := h.lock
    rw [hlock] at hguards
    have hout := hguards.outside p
    simp [hp] at hout

theorem sleeplock_excludes_handover :
    ∃ s, Machine.run (step twoPids) (initsleeplock (Fin 2)) handover = some s ∧
      s.pc 1 = .holding none ∧ s.lk.pid = 2 ∧ ∀ p, (s.pc p).owns = true → p = 1 := by
  obtain ⟨s, hs, hpc⟩ : ∃ s, Machine.run (step twoPids) (initsleeplock (Fin 2)) handover = some s ∧
      s.pc 1 = .holding none := by decide +kernel
  have howns : (s.pc 1).owns = true := by rw [hpc]; rfl
  obtain ⟨hone, hpid, -⟩ := sleeplock_excludes hs
  exact ⟨s, hs, hpc, (hpid 1 howns).2, fun p hp => hone p 1 hp howns⟩

end Xv6.SleepLock
