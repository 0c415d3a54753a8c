import Xv6.PTable.Invariant

/-!
# Processes and CPUs

A process is `RUNNING` exactly when it is the current process of one CPU, and
everything that has left `EMBRYO` has a kernel stack and a page directory. Both
hold whenever `ptable.lock` is free. While a CPU holds the lock they hold up to
the process it is switching.
-/

namespace Xv6.PTable

open Machine Function Option State ProcState

variable {C : Type*} {s t : State C} {c : C} {p q : Slot}

namespace Inv

variable {k : ProcPc} {es : List (C × Action)} {np : Slot} {x : Proc} {kstack pgdir : ℕ}

theorem lock_ne {c' : C} (hlock : s.lock = some c) (hne : c' ≠ c) : s.lock ≠ some c' := by
  simpa [hlock] using Ne.symm hne

section

variable (h : Inv s)
include h

theorem others (hcpu : ∀ c' ≠ c, t.cpu c' = s.cpu c')
    (hlock : ∀ c' ≠ c, s.lock ≠ some c' ∧ t.lock ≠ some c')
    (hsame : ∀ q, (s.cpu c).proc ≠ some q → (s.proc q).state = .running →
      t.pc q = s.pc q ∧ (t.proc q).state = .running) :
    ∀ c' ≠ c, CpuOk (t.lock = some c') (t.cpu c') t.pc t.proc := by
  intro c' hne
  obtain ⟨hs, ht⟩ := hlock c' hne
  have hlocks : (t.lock = some c') = (s.lock = some c') := by simp [hs, ht]
  rw [hlocks, hcpu c' hne]
  refine (h.cpu c').congr fun q hq => ?_
  have hrun := h.running_of_current hq hs
  have hother : (s.cpu c).proc ≠ some q := fun hc => hne (h.inj c' c q hq hc)
  obtain ⟨hpc, hstate⟩ := hsame q hother hrun
  exact ⟨hpc, hstate.trans hrun.symm⟩

theorem wakes {g : Slot → Proc} (hg : Wakes s.proc g) : Inv { s with proc := g } :=
  { h with
    cpu := fun c => hg.cpuOk (h.cpu c)
    running := fun q hq => h.running q ((hg.running_iff q).1 hq)
    built := fun q hq => by
      rw [(hg q).1, (hg q).2.1]
      exact h.built q ((hg.live q).symm.trans hq)
    away := fun q hq => h.away q ((hg.parked q).symm.trans hq)
    forks := fun q => hg.forkOk (h.forks q)
    exited := fun q => hg.exited (h.exited q) }

theorem schedWakeup [DecidableEq C] {chan : Chan} (hs : s.schedWakeup c chan = some t) : Inv t := by
  obtain ⟨-, rfl⟩ := ite_some_none_eq_some.1 hs
  exact h.wakes (wakes_wakeup1 s chan)

theorem moveCpu [DecidableEq C] {x : Cpu} {l : Option C}
    (hlock : ∀ c' ≠ c, s.lock ≠ some c' ∧ l ≠ some c') (hx : CpuOk (l = some c) x s.pc s.proc)
    (hstack : x.stack = (s.cpu c).stack) (hold : ∀ q, x.proc = some q → (s.cpu c).proc = some q)
    (hrun : ∀ q, (s.cpu c).proc = some q → (s.proc q).state = .running → x.proc = some q) :
    Inv { s with cpu := update s.cpu c x, lock := l } := by
  have hproc : ∀ c' q, (update s.cpu c x c').proc = some q →
      (s.cpu c').proc = some q := by
    intro c' q hq
    by_cases hne : c' = c
    · subst hne
      rw [update_self] at hq
      exact hold q hq
    · rwa [update_of_ne hne] at hq
  refine ⟨?_, ?_, ?_, h.built, ?_, h.forks, h.builders, h.entered, h.exited, h.sound⟩
  · intro c'
    by_cases hne : c' = c
    · subst hne
      simpa using hx
    · refine h.others (c := c) (t := { s with cpu := update s.cpu c x, lock := l })
        ?_ hlock (fun q _ hq => ⟨rfl, hq⟩) c' hne
      exact fun c' hne => update_of_ne hne _ _
  · intro c₁ c₂ q h₁ h₂
    exact h.inj c₁ c₂ q (hproc c₁ q h₁) (hproc c₂ q h₂)
  · intro q hq
    obtain ⟨c', hc'⟩ := h.running q hq
    refine ⟨c', ?_⟩
    by_cases hne : c' = c
    · subst hne
      simpa using hrun q hc' hq
    · simpa [hne] using hc'
  · intro q hq hstacks
    refine h.away q hq fun c' hc' => hstacks c' ?_
    by_cases hne : c' = c
    · subst hne
      simpa [hstack] using hc'
    · simpa [hne] using hc'

theorem schedAcquire [DecidableEq C] (hs : s.schedAcquire c = some t) : Inv t := by
  obtain ⟨⟨hstack, hloc, hlock⟩, rfl⟩ := ite_some_none_eq_some.1 hs
  have hc := h.cpu c
  simp only [CpuOk, hstack, hloc] at hc
  refine h.moveCpu ?_ ?_ rfl (fun _ hq => hq) fun _ hq _ => hq
  · exact fun c' hne => ⟨by simp [hlock], by simpa using Ne.symm hne⟩
  · simp [CpuOk, hstack, hc.1]

theorem schedRelease [DecidableEq C] (hs : s.schedRelease c = some t) : Inv t := by
  obtain ⟨⟨hstack, hloc⟩, rfl⟩ := ite_some_none_eq_some.1 hs
  have hc := h.cpu c
  simp only [CpuOk, hstack, hloc] at hc
  refine h.moveCpu ?_ ?_ rfl (fun _ hq => hq) fun _ hq _ => hq
  · exact fun c' hne => ⟨lock_ne hc.2 hne, by simp⟩
  · simp [CpuOk, hstack, hc.1]

theorem clearProc [DecidableEq C] (hs : s.clearProc c = some t) : Inv t := by
  obtain ⟨⟨hstack, hloc⟩, rfl⟩ := ite_some_none_eq_some.1 hs
  have hc := h.cpu c
  simp only [CpuOk, hstack, hloc] at hc
  obtain ⟨hlock, p, hp, hparked⟩ := hc
  refine h.moveCpu ?_ ?_ rfl (by simp) fun q hq hrun => ?_
  · exact fun c' hne => ⟨lock_ne hlock hne, by simp⟩
  · simp [CpuOk, hstack]
  · cases hp.symm.trans hq
    rw [hrun] at hparked
    cases hparked

/-- `run_proc` never panics: a runnable process has been built, and no CPU has it. -/
theorem runProc [DecidableEq C] (hs : s.runProc c p = some t) : Inv t := by
  rw [State.runProc, ite_none_right_eq_some] at hs
  obtain ⟨⟨hstack, hloc, hrunnable⟩, hs⟩ := hs
  obtain ⟨hkstack, hpgdir⟩ := h.built p (by rw [hrunnable]; rfl)
  rw [if_neg hkstack, if_neg hpgdir] at hs
  cases hs
  have hc := h.cpu c
  simp only [CpuOk, hstack, hloc] at hc
  obtain ⟨hproc, hlock⟩ := hc
  have hfree : ∀ c', (s.cpu c').proc ≠ some p := by
    intro c' hp
    by_cases hne : c' = c
    · rw [hne, hproc] at hp
      cases hp
    · have hrun := h.running_of_current hp (lock_ne hlock hne)
      rw [hrunnable] at hrun
      cases hrun
  have haway : (s.pc p).away := by
    refine h.away p (by rw [hrunnable]; rfl) fun c' hc' => ?_
    exact hfree c' (h.current_of_stack hc')
  have hne_of_running : ∀ q, (s.proc q).state = .running → q ≠ p := by
    rintro q hq rfl
    rw [hrunnable] at hq
    cases hq
  refine ⟨?_, ?_, ?_, ?_, ?_, ?_, h.builders, h.entered, ?_, h.sound⟩
  · intro c'
    by_cases hne : c' = c
    · subst hne
      simp only [CpuOk, setCpu, setProc, update_self, true_and]
      cases hpc : s.pc p <;> simp_all [ProcPc.away]
    · refine h.others (c := c) ?_ ?_ ?_ c' hne
      · exact fun c' hne => by simp [setCpu, setProc, hne]
      · exact fun c' hne => ⟨lock_ne hlock hne, lock_ne hlock hne⟩
      · exact fun q _ hq => ⟨rfl, by simp [setCpu, setProc, hne_of_running q hq, hq]⟩
  · have hinj := h.inj
    simp only [setCpu, setProc, update_apply]
    grind
  · have hrunning := h.running
    simp only [setCpu, setProc, update_apply]
    grind
  · have hbuilt := h.built
    simp only [setCpu, setProc, update_apply]
    grind
  · have haways := h.away
    simp only [setCpu, setProc, update_apply]
    grind [parked]
  · intro q
    have hforks := h.forks q
    simp only [ForkOk, setCpu, setProc, update_apply] at hforks ⊢
    grind
  · intro q
    have hexited := h.exited q
    simp only [Exited, setCpu, setProc, update_apply] at hexited ⊢
    grind

theorem embryo_of_child (hnp : (s.fork p).child = some np) : (s.proc np).state = .embryo := by
  have hfork := h.forks p
  cases hf : s.fork p with
  | idle =>
    rw [hf] at hnp
    cases hnp
  | found x =>
    rw [hf] at hfork hnp
    cases hnp
    exact hfork
  | stacked | copied =>
    rw [hf] at hfork hnp
    cases hnp
    exact hfork.1

theorem forkOk_congr {pc : Slot → ProcPc} {proc : Slot → Proc}
    (hsame : ∀ q, (s.proc q).state = .embryo → pc q = s.pc q ∧ proc q = s.proc q) (q : Slot) :
    ForkOk (s.fork q) pc proc := by
  have hfork := h.forks q
  have hchild : ∀ np, (s.fork q).child = some np → (s.proc np).state = .embryo :=
    fun _ => h.embryo_of_child
  cases hf : s.fork q with
  | idle => trivial
  | found np | stacked np | copied np =>
    rw [hf] at hfork hchild
    obtain ⟨hpc, hproc⟩ := hsame np (hchild np rfl)
    simp only [ForkOk, hpc, hproc] at hfork ⊢
    exact hfork

theorem entered_goto (hk : Entered k (s.fork p)) (q : Slot) :
    Entered (update s.pc p k q) (s.fork q) := by
  by_cases hqp : q = p
  · subst hqp
    rwa [update_self]
  · rw [update_of_ne hqp]
    exact h.entered q

theorem exited_goto (hk : Exited k (s.proc p).state) (q : Slot) :
    Exited (update s.pc p k q) (s.proc q).state := by
  by_cases hqp : q = p
  · subst hqp
    rwa [update_self]
  · rw [update_of_ne hqp]
    exact h.exited q

theorem forkOk_goto (hp : (s.proc p).state ≠ .embryo) (q : Slot) :
    ForkOk (s.fork q) (update s.pc p k) s.proc := by
  refine h.forkOk_congr (fun r hr => ⟨update_of_ne ?_ _ _, rfl⟩) q
  rintro rfl
  exact hp hr

theorem moveProc (hstack : (s.cpu c).stack = some p) {pc : ProcPc} {l : Option C}
    (hlock : ∀ c' ≠ c, s.lock ≠ some c' ∧ l ≠ some c') (hrun : (s.proc p).state = .running)
    (huser : pc = .user ↔ l ≠ some c) (hsched : ∀ r, pc ≠ .sched r ∧ pc ≠ .switched r)
    (hent : Entered pc (s.fork p)) : Inv { s.goto p pc with lock := l } := by
  have hproc := h.current_of_stack hstack
  refine ⟨?_, h.inj, h.running, h.built, ?_, ?_, h.builders, ?_, ?_, h.sound⟩
  · intro c'
    by_cases hne : c' = c
    · subst hne
      simp only [CpuOk, goto, hstack, hproc, update_self, true_and]
      cases pc <;> simp_all
    · refine h.others (c := c) (t := { s.goto p pc with lock := l }) (fun _ _ => rfl) hlock
        ?_ c' hne
      intro q hq hrun
      have hqp : q ≠ p := fun hqp => hq (by rw [hproc, hqp])
      exact ⟨update_of_ne hqp _ _, hrun⟩
  · intro q hq hstacks
    have hqp : q ≠ p := fun hqp => hstacks c (by rw [hqp]; exact hstack)
    simp only [goto, update_of_ne hqp]
    exact h.away q hq hstacks
  · exact h.forkOk_goto (by simp [hrun])
  · exact h.entered_goto hent
  · refine h.exited_goto ?_
    cases pc <;> simp_all [Exited]

/-- A process that holds the lock changes its state and enters `sched`. -/
theorem park (hstack : (s.cpu c).stack = some p) (hlock : s.lock = some c)
    (hrun : (s.proc p).state = .running) {f : Proc → Proc} {r : Resume}
    (hparked : (f (s.proc p)).state.parked) (hkstack : (f (s.proc p)).kstack = (s.proc p).kstack)
    (hpgdir : (f (s.proc p)).pgdir = (s.proc p).pgdir) (hent : Entered (.sched r) (s.fork p))
    (hexited : Exited (.sched r) (f (s.proc p)).state) :
    Inv ((s.setProc p f).goto p (.sched r)) := by
  have hproc := h.current_of_stack hstack
  refine ⟨?_, h.inj, ?_, ?_, ?_, ?_, h.builders, ?_, ?_, h.sound⟩
  · intro c'
    by_cases hne : c' = c
    · subst hne
      simp [CpuOk, goto, setProc, hstack, hproc, hlock, hparked]
    · refine h.others (c := c) ?_ ?_ ?_ c' hne
      · exact fun _ _ => rfl
      · exact fun c' hne => ⟨lock_ne hlock hne, lock_ne hlock hne⟩
      · intro q hq hrun
        have hqp : q ≠ p := fun hqp => hq (by rw [hproc, hqp])
        simp [goto, setProc, hqp, hrun]
  · intro q hq
    by_cases hqp : q = p
    · exact ⟨c, by rw [hqp]; exact hproc⟩
    · exact h.running q (by simpa [goto, setProc, hqp] using hq)
  · intro q hq
    by_cases hqp : q = p
    · subst hqp
      simp only [goto, setProc, update_self, hkstack, hpgdir]
      exact h.built q (by rw [hrun]; rfl)
    · simp only [goto, setProc, update_of_ne hqp] at hq ⊢
      exact h.built q hq
  · intro q hq hstacks
    have hqp : q ≠ p := fun hqp => hstacks c (by rw [hqp]; exact hstack)
    simp only [goto, setProc, update_of_ne hqp] at hq ⊢
    exact h.away q hq hstacks
  · refine h.forkOk_congr fun q hq => ?_
    have hqp : q ≠ p := by
      rintro rfl
      simp [hrun] at hq
    simp [goto, setProc, hqp]
  · exact h.entered_goto hent
  · intro q
    by_cases hqp : q = p
    · subst hqp
      simpa [goto, setProc] using hexited
    · simpa [goto, setProc, hqp] using h.exited q

theorem acquire {path : Path} (hs : s.acquire c path = some t) : Inv t := by
  rw [State.acquire] at hs
  split at hs
  case h_2 => cases hs
  case h_1 p hstack =>
    obtain ⟨⟨hpc, henter, hlock⟩, hs⟩ := ite_none_right_eq_some.1 hs
    split_ifs at hs
    · cases hs
      exact h.halt_initExiting
    · cases hs
      have hrun := h.running_of_current (h.current_of_stack hstack) (by simp [hlock])
      refine h.moveProc hstack ?_ hrun (by simp) (by simp) henter
      exact fun c' hne => ⟨by simp [hlock], by simpa using Ne.symm hne⟩

theorem release (hs : s.release c = some t) : Inv t := by
  rw [State.release] at hs
  split at hs
  case h_2 => cases hs
  case h_1 p hstack =>
    obtain ⟨hpc, rfl⟩ := ite_some_none_eq_some.1 hs
    obtain ⟨hlock, hrun⟩ := h.holding hstack (by simp [hpc]) (by simp [hpc])
    refine h.moveProc hstack ?_ hrun (by simp) (by simp) trivial
    exact fun c' hne => ⟨lock_ne hlock hne, by simp⟩

theorem releasing (hstack : (s.cpu c).stack = some p) (hlock : s.lock = some c)
    (hrun : (s.proc p).state = .running) : Inv (s.goto p .releasing) := by
  refine h.moveProc (l := s.lock) hstack ?_ hrun (by simp [hlock]) (by simp) trivial
  exact fun c' hne => ⟨lock_ne hlock hne, lock_ne hlock hne⟩

theorem wakeProc (q : Slot) (f : Proc → Proc)
    (hf : (f (s.proc q)).kstack = (s.proc q).kstack ∧ (f (s.proc q)).pgdir = (s.proc q).pgdir ∧
      ((f (s.proc q)).state = (s.proc q).state ∨
        (s.proc q).state = .sleeping ∧ (f (s.proc q)).state = .runnable)) : Inv (s.setProc q f) :=
  h.wakes (wakes_setProc s q hf)

end

section

variable (h : Inv s)
include h

/-- No exited process is run again, so `exit` does not return from `sched`. -/
theorem resume (hs : s.resume c = some t) : Inv t := by
  rw [State.resume] at hs
  split at hs
  case h_2 => cases hs
  case h_1 p hstack =>
    have hhold := h.holding hstack
    have hchan := h.wakeProc p (fun q => { q with chan := .null }) ⟨rfl, rfl, .inl rfl⟩
    split at hs
    case h_1 hpc | h_2 hpc =>
      cases hs
      obtain ⟨hlock, hrun⟩ := hhold (by simp [hpc]) (by simp [hpc])
      exact h.releasing hstack hlock hrun
    case h_3 hpc =>
      cases hs
      obtain ⟨hlock, hrun⟩ := hhold (by simp [hpc]) (by simp [hpc])
      exact hchan.releasing hstack hlock (by simpa [setProc] using hrun)
    case h_4 hpc =>
      cases hs
      obtain ⟨hlock, hrun⟩ := hhold (by simp [hpc]) (by simp [hpc])
      have hidle : s.fork p = .idle := by
        have hentered := h.entered p
        rw [hpc] at hentered
        exact hentered
      refine hchan.moveProc (l := s.lock) hstack ?_ (by simpa [setProc] using hrun)
        (by simp [hlock]) (by simp) ?_
      · exact fun c' hne =>
          ⟨by simpa [setProc, hlock] using Ne.symm hne, by simpa [hlock] using Ne.symm hne⟩
      · simp [Entered, mayEnter, setProc, hidle]
    case h_5 hpc =>
      obtain ⟨-, hrun⟩ := hhold (by simp [hpc]) (by simp [hpc])
      have hexited := h.exited p
      rw [hpc, hrun] at hexited
      rcases hexited with hexited | hexited | hexited <;> cases hexited
    case h_6 => cases hs

theorem swtch [DecidableEq C] (hs : s.swtch c = some t) : Inv t := by
  rw [State.swtch] at hs
  split at hs
  case h_2 => cases hs
  case h_1 p hstack =>
    split at hs
    case h_2 => cases hs
    case h_1 r hpc =>
      have hc := h.cpu c
      simp only [CpuOk, hstack, hpc] at hc
      obtain ⟨hproc, hlock, hparked⟩ := hc
      have hnot : (s.proc p).state ≠ .running := by
        intro hrun
        rw [hrun] at hparked
        cases hparked
      rw [if_neg (not_not.2 hlock), if_neg hnot] at hs
      cases hs
      have hcur : ∀ c', (update s.cpu c
          { s.cpu c with stack := none, loc := .returned } c').proc = (s.cpu c').proc := by
        intro c'
        by_cases hne : c' = c
        · simp [hne]
        · simp [hne]
      refine ⟨?_, ?_, ?_, h.built, ?_, ?_, h.builders, ?_, ?_, h.sound⟩
      · intro c'
        by_cases hne : c' = c
        · subst hne
          simp [CpuOk, setCpu, goto, hproc, hlock, hparked]
        · refine h.others (c := c) ?_ ?_ ?_ c' hne
          · exact fun c' hne => by simp [setCpu, goto, hne]
          · exact fun c' hne => ⟨lock_ne hlock hne, lock_ne hlock hne⟩
          · intro q hq hrun
            have hqp : q ≠ p := fun hqp => hq (by rw [hproc, hqp])
            simp [setCpu, goto, hqp, hrun]
      · intro c₁ c₂ q h₁ h₂
        simp only [setCpu, goto, hcur] at h₁ h₂
        exact h.inj c₁ c₂ q h₁ h₂
      · intro q hq
        obtain ⟨c', hc'⟩ := h.running q hq
        refine ⟨c', ?_⟩
        simpa only [setCpu, goto, hcur] using hc'
      · intro q hq hstacks
        by_cases hqp : q = p
        · simp [setCpu, goto, hqp, ProcPc.away]
        · simp only [setCpu, goto, update_of_ne hqp]
          refine h.away q hq fun c' hc' => hstacks c' ?_
          have hne : c' ≠ c := by
            rintro rfl
            rw [hstack] at hc'
            exact hqp (Option.some.inj hc').symm
          simpa [setCpu, goto, hne] using hc'
      · refine h.forkOk_goto fun hembryo => ?_
        rw [hembryo] at hparked
        cases hparked
      · refine h.entered_goto ?_
        rw [entered_switched, ← hpc]
        exact h.entered p
      · refine h.exited_goto ?_
        rw [exited_switched, ← hpc]
        exact h.exited p

/-- A slot that is no CPU's current process changes, and with it the progress
of a `fork`. -/
theorem offCpu (hoff : ∀ c, (s.cpu c).proc ≠ some q) {f : Slot → ForkPc} (hx : x.state ≠ .running)
    (hbuilt : x.state.live → x.kstack ≠ none ∧ x.pgdir ≠ none) (haway : x.state.parked → k.away)
    (hforks : ∀ r, ForkOk (f r) (update s.pc q k) (update s.proc q x))
    (hbuilders : ∀ r r' np, (f r).child = some np → (f r').child = some np → r = r')
    (hentered : ∀ r, Entered (update s.pc q k r) (f r)) (hexited : Exited k x.state) :
    Inv { s with proc := update s.proc q x, pc := update s.pc q k,
                 fork := f } := by
  refine ⟨?_, h.inj, ?_, ?_, ?_, hforks, hbuilders, hentered, ?_, h.sound⟩
  · intro c
    refine (h.cpu c).congr fun r hr => ?_
    have hrq : r ≠ q := fun hrq => hoff c (hrq ▸ hr)
    simp [hrq]
  · intro r hr
    by_cases hrq : r = q
    · subst hrq
      simp only [update_self] at hr
      exact absurd hr hx
    · simp only [update_of_ne hrq] at hr
      exact h.running r hr
  · intro r hr
    by_cases hrq : r = q
    · subst hrq
      simp only [update_self] at hr ⊢
      exact hbuilt hr
    · simp only [update_of_ne hrq] at hr ⊢
      exact h.built r hr
  · intro r hr hstacks
    by_cases hrq : r = q
    · subst hrq
      simp only [update_self] at hr ⊢
      exact haway hr
    · simp only [update_of_ne hrq] at hr ⊢
      exact h.away r hr hstacks
  · intro r
    by_cases hrq : r = q
    · subst hrq
      simpa using hexited
    · simpa [hrq] using h.exited r

theorem forkOk_of_child_ne (hp : (s.fork p).child ≠ some q) :
    ForkOk (s.fork p) (update s.pc q k) (update s.proc q x) := by
  have hfork := h.forks p
  cases hf : s.fork p with
  | idle => trivial
  | found np | stacked np | copied np =>
    rw [hf] at hfork hp
    have hne : np ≠ q := fun hne => hp (by rw [hne]; rfl)
    simpa [ForkOk, hne] using hfork

theorem zombie_offCpu (hstack : (s.cpu c).stack = some p) (hlock : s.lock = some c)
    (hrun : (s.proc p).state = .running) (hq : (s.proc q).state = .zombie) (c' : C) :
    (s.cpu c').proc ≠ some q := by
  intro hc'
  by_cases hne : c' = c
  · subst hne
    obtain rfl := Option.some.inj ((h.current_of_stack hstack).symm.trans hc')
    simp [hrun] at hq
  · have hrunning := h.running_of_current hc' (lock_ne hlock hne)
    simp [hq] at hrunning

theorem ne_child_of_state (hq : (s.proc q).state ≠ .embryo) (r : Slot) :
    (s.fork r).child ≠ some q :=
  fun hr => hq (h.embryo_of_child hr)

theorem freeChild (hoff : ∀ c, (s.cpu c).proc ≠ some q) (hq : (s.proc q).state = .zombie)
    {f : Proc → Proc} (hf : (f (s.proc q)).state = .unused) : Inv (s.setProc q f) := by
  have hoffCpu := h.offCpu (q := q) (x := f (s.proc q)) (k := s.pc q) (f := s.fork) hoff
    (by simp [hf]) (by simp [hf]) (by simp [hf])
    (fun r => h.forkOk_of_child_ne (h.ne_child_of_state (by simp [hq]) r))
    h.builders (fun r => by rw [update_eq_self]; exact h.entered r)
    (by rw [hf]; unfold Exited; split <;> simp)
  rwa [update_eq_self] at hoffCpu

/-- A `fork` changes the slot it works on, before it starts it. -/
theorem changeChild (hnp : (s.fork p).child = some np) {f : ForkPc} (hx : x.state ≠ .running)
    (hbuilt : x.state.live → x.kstack ≠ none ∧ x.pgdir ≠ none) (haway : x.state.parked → k.away)
    (hk : k = s.pc np ∨ k = .forkret) (hf : ForkOk f (update s.pc np k) (update s.proc np x))
    (hchild : f.child = none ∨ f.child = some np) (hentered : Entered (s.pc p) f)
    (hexited : Exited k x.state) :
    Inv { s with proc := update s.proc np x, pc := update s.pc np k,
                 fork := update s.fork p f } := by
  have hembryo := h.embryo_of_child hnp
  have hoff : ∀ c, (s.cpu c).proc ≠ some np := by
    intro c hc
    have hlive := h.live_of_current hc
    simp [hembryo] at hlive
  have hother : ∀ r ≠ p, (s.fork r).child ≠ some np :=
    fun r hne hr => hne (h.builders r p np hr hnp)
  refine h.offCpu hoff hx hbuilt haway ?_ ?_ ?_ hexited
  · intro r
    by_cases hrp : r = p
    · subst hrp
      simpa using hf
    · simpa [hrp] using h.forkOk_of_child_ne (hother r hrp)
  · intro r r' y hr hr'
    have hold : ∀ z, (update s.fork p f z).child = some y →
        (s.fork z).child = some y := by
      intro z hz
      by_cases hzp : z = p
      · subst hzp
        rw [update_self] at hz
        rcases hchild with hnone | hsome
        · simp [hnone] at hz
        · rw [hnp, ← hsome, hz]
      · rwa [update_of_ne hzp] at hz
    exact h.builders r r' y (hold r hr) (hold r' hr')
  · intro r
    have hpc : update s.pc np k r = s.pc r ∨
        update s.pc np k r = .forkret := by
      by_cases hrnp : r = np
      · subst hrnp
        simpa using hk
      · simp [hrnp]
    rcases hpc with hpc | hpc
    · rw [hpc]
      by_cases hrp : r = p
      · subst hrp
        simpa using hentered
      · simpa [hrp] using h.entered r
    · rw [hpc]
      trivial

theorem allocStack {kstack : Option ℕ} (hs : s.allocStack c kstack = some t) : Inv t := by
  rw [State.allocStack] at hs
  split at hs
  case h_2 => cases hs
  case h_1 p hstack =>
    split at hs
    case h_2 => cases hs
    case h_1 np hpc hfork =>
      have hnp : (s.fork p).child = some np := by
        rw [hfork]
        rfl
      have hembryo := h.embryo_of_child hnp
      have hentered : ∀ f, Entered (s.pc p) f := fun f => by
        rw [hpc]
        trivial
      cases kstack with
      | some k =>
        cases hs
        refine h.changeChild hnp ?_ ?_ ?_ (.inr rfl) ?_ (.inr rfl) (hentered _) trivial
        · simp [hembryo]
        · simp [hembryo, live, parked]
        · simp [hembryo, parked]
        · simp [ForkOk, hembryo]
      | none =>
        cases hs
        have hfree := h.changeChild (k := s.pc np) (f := .idle) hnp
          (x := { s.proc np with kstack := none, state := .unused }) (by simp) (by simp) (by simp)
          (.inl rfl) trivial (.inl rfl) (hentered _) (by unfold Exited; split <;> simp)
        rwa [update_eq_self] at hfree

theorem copyuvm {pgdir : Option ℕ} (hs : s.copyuvm c pgdir = some t) : Inv t := by
  rw [State.copyuvm] at hs
  split at hs
  case h_2 => cases hs
  case h_1 p hstack =>
    split at hs
    case h_2 => cases hs
    case h_1 np hpc hfork =>
      have hnp : (s.fork p).child = some np := by
        rw [hfork]
        rfl
      have hfork' := h.forks p
      rw [hfork] at hfork'
      obtain ⟨hembryo, hforkret, hkstack⟩ := hfork'
      have hentered : ∀ f, Entered (s.pc p) f := fun f => by
        rw [hpc]
        trivial
      cases pgdir with
      | some d =>
        cases hs
        have hcopied := h.changeChild (k := s.pc np) (f := .copied np) hnp
          (x := { s.proc np with pgdir := some d, parent := (s.cpu c).proc })
          (by simp [hembryo]) (by simp [hembryo, live, parked])
          (by simp [hembryo, parked]) (.inl rfl)
          (by simp [ForkOk, hembryo, hforkret, hkstack]) (.inr rfl) (hentered _)
          (by rw [hforkret]; trivial)
        rwa [update_eq_self] at hcopied
      | none =>
        cases hs
        have hfree := h.changeChild (k := s.pc np) (f := .idle) hnp
          (x := { s.proc np with pgdir := none, kstack := none, state := .unused })
          (by simp) (by simp) (by simp) (.inl rfl) trivial (.inl rfl) (hentered _)
          (by rw [hforkret]; trivial)
        rwa [update_eq_self] at hfree

end

section Perform

variable (h : Inv s) (hstack : (s.cpu c).stack = some p) (hlock : s.lock = some c)
  (hrun : (s.proc p).state = .running)

include h hstack hlock hrun

theorem exit : Inv (s.exit p) := by
  obtain ⟨g, hg, hfold⟩ := foldl_passToInit p (s.wakeup1 (parentChan (s.proc p).parent))
    (List.finRange nProc)
  have hwakes : Wakes s.proc g := (wakes_wakeup1 s _).trans hg
  unfold State.exit
  dsimp only
  rw [hfold]
  exact (h.wakes hwakes).park hstack hlock ((hwakes.running_iff p).2 hrun) rfl rfl rfl trivial
    (.inl rfl)

theorem wait (hidle : s.fork p = .idle) : Inv (s.wait p) := by
  rw [State.wait]
  split
  case h_1 q hq =>
    have hzombie := (zombieChild_some hq).2
    have hpq : p ≠ q := by
      rintro rfl
      simp [hrun] at hzombie
    have hfree := h.freeChild (h.zombie_offCpu hstack hlock hrun hzombie) hzombie
      (f := fun x => { x with kstack := none, pid := 0, parent := none, killed := false,
                              state := .unused }) rfl
    exact hfree.releasing hstack hlock (by simpa [setProc, hpq] using hrun)
  case h_2 =>
    split_ifs
    · exact h.releasing hstack hlock hrun
    · exact h.park hstack hlock hrun rfl rfl rfl hidle trivial

theorem kill (pid : BitVec 32) : Inv (s.kill p pid) := by
  rw [State.kill]
  split
  case h_1 q hq =>
    have hwake : Inv (s.setProc q fun x => { x with killed := true, state :=
        if x.state = .sleeping then .runnable else x.state }) := by
      refine h.wakeProc q _ ⟨rfl, rfl, ?_⟩
      by_cases hsleep : (s.proc q).state = .sleeping
      · exact .inr ⟨hsleep, by simp [hsleep]⟩
      · exact .inl (by simp [hsleep])
    refine hwake.releasing hstack hlock ?_
    by_cases hpq : p = q
    · subst hpq
      simp [setProc, hrun]
    · simp [setProc, hpq, hrun]
  case h_2 => exact h.releasing hstack hlock hrun

theorem allocproc (hidle : s.fork p = .idle) : Inv (s.allocproc p) := by
  have hrel := h.releasing hstack hlock hrun
  rw [State.allocproc]
  split
  case h_2 => exact hrel
  case h_1 np hnp =>
    have hunused : (s.proc np).state = .unused := by
      simpa using List.find?_some hnp
    have hnext : Inv { s.goto p .releasing with nextpid := s.nextpid + 1 } :=
      { hrel with }
    have hnpp : np ≠ p := by
      rintro rfl
      simp [hrun] at hunused
    have hpc : update (update s.pc p .releasing) np (s.pc np) =
        update s.pc p .releasing := by
      rw [update_eq_self_iff, update_of_ne hnpp]
    have hother := h.ne_child_of_state (q := np) (by simp [hunused])
    have hfound := hnext.offCpu (q := np) (k := s.pc np)
      (x := { s.proc np with state := .embryo, pid := s.nextpid })
      (f := update s.fork p (.found np)) ?_ (by simp) (by simp) (by simp) ?_ ?_ ?_ ?_
    · simp only [goto] at hfound
      rwa [hpc] at hfound
    · intro c' hc'
      have hlive := h.live_of_current hc'
      simp [hunused] at hlive
    · intro r
      by_cases hrp : r = p
      · simp [hrp, ForkOk]
      · simpa [goto, hrp] using hnext.forkOk_of_child_ne (hother r)
    · intro r r' y hr hr'
      have hbuilders := h.builders r r' y
      grind [ForkPc.child]
    · intro r
      by_cases hrnp : r = np
      · subst hrnp
        simpa [hnpp] using h.entered r
      · by_cases hrp : r = p
        · subst hrp
          simp [goto, hrnp, Entered]
        · simpa [goto, hrnp, hrp] using h.entered r
    · unfold Exited
      split <;> simp

theorem start (hcopied : s.fork p = .copied np) : Inv (s.start p np) := by
  have hrel := h.releasing hstack hlock hrun
  have hfork := h.forks p
  rw [hcopied] at hfork
  obtain ⟨hembryo, hforkret, hkstack, hpgdir⟩ := hfork
  have hnpp : np ≠ p := by
    rintro rfl
    simp [hrun] at hembryo
  have hnp : ((s.goto p .releasing).fork p).child = some np := by
    simp [goto, hcopied, ForkPc.child]
  have hstarted := hrel.changeChild (k := s.pc np) (f := .idle)
    (x := { s.proc np with state := .runnable }) hnp (by simp) (fun _ => ⟨hkstack, hpgdir⟩)
    (by simp [hforkret, ProcPc.away]) (.inr hforkret)
    trivial (.inl rfl) (by simp [goto, Entered]) (by rw [hforkret]; trivial)
  have hpc : update (update s.pc p .releasing) np (s.pc np) =
      update s.pc p .releasing := by
    rw [update_eq_self_iff, update_of_ne hnpp]
  simp only [goto] at hstarted
  rwa [hpc] at hstarted

end Perform

theorem update (h : Inv s) (hs : s.update c = some t) : Inv t := by
  rw [State.update] at hs
  split at hs
  case h_2 => cases hs
  case h_1 p hstack =>
    split at hs
    case h_2 => cases hs
    case h_1 path hpc =>
      rw [h.current_of_stack hstack] at hs
      cases hs
      obtain ⟨hlock, hrun⟩ := h.holding hstack (by simp [hpc]) (by simp [hpc])
      have hentered := h.entered p
      rw [hpc] at hentered
      cases path with
      | yield | sleep => exact h.park hstack hlock hrun rfl rfl rfl trivial trivial
      | wakeup chan =>
        have hwakes := wakes_wakeup1 s chan
        exact (h.wakes hwakes).releasing hstack hlock ((hwakes.running_iff p).2 hrun)
      | exit => exact h.exit hstack hlock hrun
      | wait => exact h.wait hstack hlock hrun (by simpa [Entered, mayEnter] using hentered)
      | kill pid => exact h.kill hstack hlock hrun pid
      | allocproc =>
        exact h.allocproc hstack hlock hrun (by simpa [Entered, mayEnter] using hentered)
      | start np =>
        exact h.start hstack hlock hrun (by simpa [Entered, mayEnter] using hentered)

theorem step [DecidableEq C] (h : Inv s) {e : C × Action} (hs : PTable.step s e = some t) :
    Inv t := by
  obtain ⟨c, a⟩ := e
  obtain ⟨-, hstep⟩ := ite_none_left_eq_some.1 hs
  cases a with
  | schedAcquire => exact h.schedAcquire hstep
  | schedWakeup chan => exact h.schedWakeup hstep
  | schedRelease => exact h.schedRelease hstep
  | runProc p => exact h.runProc hstep
  | clearProc => exact h.clearProc hstep
  | acquire path => exact h.acquire hstep
  | update => exact h.update hstep
  | swtch => exact h.swtch hstep
  | resume => exact h.resume hstep
  | release => exact h.release hstep
  | allocStack kstack => exact h.allocStack hstep
  | copyuvm pgdir => exact h.copyuvm hstep

theorem userinit (C : Type*) (initproc : Slot) (kstack pgdir : ℕ) :
    Inv (PTable.userinit C initproc kstack pgdir) where
  cpu c := by simp [CpuOk, PTable.userinit]
  inj c c' p hc := by cases hc
  running p hp := by
    simp only [PTable.userinit] at hp
    split_ifs at hp
  built p hp := by
    simp only [PTable.userinit] at hp ⊢
    split_ifs at hp ⊢ with hinit
    · simp
    · cases hp
  away p _ _ := rfl
  forks p := trivial
  builders p q np hp := by cases hp
  entered p := trivial
  exited p := trivial
  sound := .inl rfl

theorem run [DecidableEq C] {initproc : Slot}
    (hrun : Machine.run PTable.step (PTable.userinit C initproc kstack pgdir) es = some s) :
    Inv s :=
  run_invariant (userinit C initproc kstack pgdir) (fun _ _ _ h hs => h.step hs) hrun

end Inv

/-- Whenever `ptable.lock` is free, a process is running exactly when it is the
current process of exactly one CPU, and all but the embryos have a kernel stack
and a page directory. `switchuvm` never panics, and `wait` frees no process that
is current on a CPU. -/
theorem running_iff_current [DecidableEq C] {initproc : Slot}
    (hrun : run step (userinit C initproc kstack pgdir) es = some s) :
    s.halted ≠ some .switchuvmNoKstack ∧ s.halted ≠ some .switchuvmNoPgdir ∧
      (s.lock = none →
        (∀ p, (s.proc p).state = .running ↔ ∃! c, (s.cpu c).proc = some p) ∧
          ∀ p, (s.proc p).state.live →
            (s.proc p).kstack ≠ none ∧ (s.proc p).pgdir ≠ none) ∧
      ∀ c p q, (s.cpu c).stack = some p → s.pc p = .holding .wait →
        s.zombieChild p = some q → ∀ c', (s.cpu c').proc ≠ some q := by
  have h := Inv.run hrun
  refine ⟨?_, ?_, ?_, ?_⟩
  · rcases h.sound with hsound | hsound <;> rw [hsound] <;> simp
  · rcases h.sound with hsound | hsound <;> rw [hsound] <;> simp
  · refine fun hlock => ⟨fun p => ⟨fun hp => ?_, ?_⟩, h.built⟩
    · obtain ⟨c, hc⟩ := h.running p hp
      exact ⟨c, hc, fun c' hc' => h.inj c' c p hc' hc⟩
    · rintro ⟨c, hc, -⟩
      exact h.running_of_current hc (by simp [hlock])
  · intro c p q hstack hpc hq
    obtain ⟨hlock, hprun⟩ := h.holding hstack (by simp [hpc]) (by simp [hpc])
    exact h.zombie_offCpu hstack hlock hprun (zombieChild_some hq).2

def forkAndRun : List (Fin 2 × Action) :=
  [(0, .schedAcquire), (0, .runProc 0), (0, .resume), (0, .release),
    (0, .acquire .allocproc), (0, .update), (0, .release), (0, .allocStack (some 5)),
    (0, .copyuvm (some 6)), (0, .acquire (.start 1)), (0, .update), (0, .release),
    (1, .schedAcquire), (1, .runProc 1), (1, .resume), (1, .release)]

theorem running_iff_current_forkAndRun :
    ∃ s, run step (userinit (Fin 2) 0 3 4) forkAndRun = some s ∧ s.lock = none ∧
      ∃! c, (s.cpu c).proc = some 1 := by
  obtain ⟨s, hrun, hlock, hstate⟩ : ∃ s, run step (userinit (Fin 2) 0 3 4) forkAndRun = some s ∧
      s.lock = none ∧ (s.proc 1).state = .running := by decide +kernel
  obtain ⟨-, -, hfree, -⟩ := running_iff_current hrun
  exact ⟨s, hrun, hlock, ((hfree hlock).1 1).1 hstate⟩

end Xv6.PTable
