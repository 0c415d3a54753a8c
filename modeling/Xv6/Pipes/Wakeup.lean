import Xv6.Pipes.Fifo

/-!
# Wakeups of a pipe

A process that dozes is in `sleep` past the point where it has released `p->lock`, or
about to release it, and nobody has woken it up. What it waits for has not happened,
or the holder of `p->lock` owes a `wakeup` on its address: `pipewrite` from its first
store on, `piperead` when it copies, `pipeclose` when it has cleared its flag.

`pipewrite` does not always pay. When the pipe is full and its reader is gone, or
the writer has been killed, it returns at once, and a reader that fell asleep before
the bytes were stored sleeps on with a full pipe. If nobody dozes on `nread` whenever
`pipewrite` gives up, no wakeup is lost.
-/

namespace Xv6.Pipes

open Function Option State

variable {l : Loop}

@[simp] def Pc.sleepsOn : Pc → Option Chan
  | .sleepRelease l | .sleepSet l | .asleep l => some l.chan
  | .out _ | .entry _ | .storing _ _ | .testing _ | .copying _ _ | .closing _ | .waking _ _
  | .returning _ | .sleepLock _ | .sleepRelock _ => none

theorem Pc.sleepsOn_cases {c : Pc} {ch : Chan} (hc : c.sleepsOn = some ch) :
    c.atTable = true ∨ ∃ l, c = .asleep l ∧ l.chan = ch := by
  cases c with
  | sleepRelease l => exact .inl rfl
  | sleepSet l => exact .inl rfl
  | asleep l => exact .inr ⟨l, rfl, some.inj hc⟩
  | _ => cases hc

@[simp] def Pc.Owes (ch : Chan) : Pc → Prop
  | .storing _ _ => ch = .nread
  | .copying _ _ => ch = .nwrite
  | .waking c _ => ch = c
  | .out _ | .entry _ | .testing _ | .closing _ | .returning _ | .sleepLock _
  | .sleepRelease _ | .sleepSet _ | .asleep _ | .sleepRelock _ => False

theorem Pc.inside_of_owes {c : Pc} {ch : Chan} (hc : c.Owes ch) : c.inside = true := by
  cases c with
  | storing n rest => rfl
  | copying n addr => rfl
  | waking c k => rfl
  | _ => cases hc

variable {P : Type*} {s t : State P} {p q : P} {ch : Chan} {c : Pc}

def State.Dozes (s : State P) (q : P) (ch : Chan) : Prop :=
  (s.pc q).sleepsOn = some ch ∧ ∀ l, s.pc q = .asleep l → (s.proc q).state = .sleeping

def Watched (s : State P) : Prop :=
  ∀ q ch, s.Dozes q ch → ch.Waits s.pipe ∨ ∃ p, (s.pc p).Owes ch

variable [DecidableEq P]

/-- A process goes to another point. Those who doze then dozed before, or wait, and
what the process owes or makes happen is still owed. -/
theorem Watched.move (h : Watched s) (hpc : t.pc = update s.pc p c)
    (hdoze : ∀ q ch, t.Dozes q ch → s.Dozes q ch ∨ ch.Waits t.pipe)
    (hkeep : ∀ q ch, t.Dozes q ch → ch.Waits s.pipe ∨ (s.pc p).Owes ch →
      ch.Waits t.pipe ∨ c.Owes ch) : Watched t := by
  intro q ch hq
  have hself : c.Owes ch → ∃ p, (t.pc p).Owes ch := by
    intro hc
    refine ⟨p, ?_⟩
    rwa [hpc, update_self]
  rcases hdoze q ch hq with hold | hwaits
  · rcases h q ch hold with hwaits | ⟨p', hp'⟩
    · exact (hkeep q ch hq (.inl hwaits)).imp_right hself
    · by_cases hne : p' = p
      · rw [hne] at hp'
        exact (hkeep q ch hq (.inr hp')).imp_right hself
      · refine .inr ⟨p', ?_⟩
        rwa [hpc, update_of_ne hne]
  · exact .inl hwaits

/-- A process that goes to a point outside of `sleep` does not doze there, and the
others doze if they did so before. -/
theorem dozes_of_move (hpc : t.pc = update s.pc p c) (hc : c.sleepsOn = none)
    (hproc : ∀ q, q ≠ p → (t.proc q).state = .sleeping → (s.proc q).state = .sleeping)
    (hq : t.Dozes q ch) : s.Dozes q ch := by
  have hqp : q ≠ p := by
    rintro rfl
    have hon := hq.1
    rw [hpc, update_self, hc] at hon
    cases hon
  obtain ⟨hon, hasleep⟩ := hq
  rw [hpc, update_of_ne hqp] at hon hasleep
  exact ⟨hon, fun l hl => hproc q hqp (hasleep l hl)⟩

theorem Watched.goOn (h : Watched s) (hpc : t.pc = update s.pc p c) (hc : c.sleepsOn = none)
    (hproc : ∀ q, q ≠ p → (t.proc q).state = .sleeping → (s.proc q).state = .sleeping)
    (hkeep : ∀ q ch, t.Dozes q ch → s.Dozes q ch → ch.Waits s.pipe ∨ (s.pc p).Owes ch →
      ch.Waits t.pipe ∨ c.Owes ch) : Watched t :=
  h.move hpc (fun _ _ hq => .inl (dozes_of_move hpc hc hproc hq))
    fun q ch hq => hkeep q ch hq (dozes_of_move hpc hc hproc hq)

theorem Watched.stay (h : Watched s) {a : Pc} (hp : s.pc p = a)
    (hpc : t.pc = update s.pc p c) (hc : c.sleepsOn = none)
    (hproc : ∀ q, q ≠ p → (t.proc q).state = .sleeping → (s.proc q).state = .sleeping)
    (hpipe : t.pipe = s.pipe) (howes : ∀ ch, a.Owes ch → c.Owes ch) : Watched t := by
  refine h.goOn hpc hc hproc ?_
  rintro q ch - - (hwaits | ho)
  · rw [hpipe]
    exact .inl hwaits
  · rw [hp] at ho
    exact .inr (howes ch ho)

def State.GivesUp (s : State P) (p : P) : Prop :=
  (∃ addr i, s.pc p = .storing addr i ∧ i < addr.length) ∧ s.pipe.ring.Full ∧
    (s.pipe.readopen = false ∨ (s.proc p).killed = true)

theorem Watched.pipewrite (h : Watched s) {addr : List Byte} {i : ℕ}
    (hp : s.pc p = .storing addr i) (hprompt : s.GivesUp p → ∀ q, ¬ s.Dozes q .nread) :
    Watched (s.pipewrite p addr i) := by
  rw [State.pipewrite]
  split
  · exact h.stay hp rfl rfl (fun _ _ hq => hq) rfl fun _ ho => ho
  · rename_i b hb
    split
    · rename_i hfull
      split
      · rename_i hgone
        -- Nobody is woken up here, so nobody may doze.
        refine h.goOn (p := p) rfl rfl (fun _ _ hq => hq) fun q ch _ hq hcase => .inl ?_
        rcases hcase with hwaits | ho
        · exact hwaits
        · rw [hp] at ho
          obtain rfl : ch = .nread := ho
          have hi := (List.getElem?_eq_some_iff.1 hb).1
          exact absurd hq (hprompt ⟨⟨addr, i, hp, hi⟩, hfull, hgone⟩ q)
      · exact h.stay hp rfl rfl (fun _ _ hq => hq) rfl fun _ ho => ho
    · rename_i hfull
      refine h.goOn (p := p) rfl rfl (fun _ _ hq => hq) fun q ch _ _ hcase => .inr ?_
      rcases hcase with hwaits | ho
      · cases ch with
        | nread => rfl
        | nwrite => exact absurd hwaits.1 hfull
      · rw [hp] at ho
        exact ho

theorem Watched.pipereadTest (h : Watched s) {n : ℤ} (hp : s.pc p = .testing n) :
    Watched (s.pipereadTest p n) := by
  rw [State.pipereadTest]
  split
  · split
    · exact h.stay hp rfl rfl (fun _ _ hq => hq) rfl fun _ ho => ho.elim
    · exact h.stay hp rfl rfl (fun _ _ hq => hq) rfl fun _ ho => ho.elim
  · exact h.stay hp rfl rfl (fun _ _ hq => hq) rfl fun _ ho => ho.elim

theorem Watched.pipereadCopy (h : Watched s) {n : ℤ} {addr : List Byte}
    (hp : s.pc p = .copying n addr) : Watched (s.pipereadCopy p n addr) := by
  rw [State.pipereadCopy]
  split
  · split
    · exact h.stay hp rfl rfl (fun _ _ hq => hq) rfl fun _ ho => ho
    · rename_i hempty
      refine h.goOn (p := p) rfl rfl (fun _ _ hq => hq) fun q ch _ _ hcase => .inr ?_
      rcases hcase with hwaits | ho
      · cases ch with
        | nread => exact absurd hwaits.1 hempty
        | nwrite => rfl
      · rw [hp] at ho
        exact ho
  · exact h.stay hp rfl rfl (fun _ _ hq => hq) rfl fun _ ho => ho

theorem Watched.pipeclose (h : Watched s) {writable : Bool} (hp : s.pc p = .closing writable) :
    Watched (s.pipeclose p writable) := by
  rw [State.pipeclose]
  split
  · refine h.goOn (p := p) rfl rfl (fun _ _ hq => hq) fun q ch _ _ hcase => ?_
    rcases hcase with hwaits | ho
    · cases ch with
      | nread => exact .inr rfl
      | nwrite => exact .inl hwaits
    · rw [hp] at ho
      exact ho.elim
  · refine h.goOn (p := p) rfl rfl (fun _ _ hq => hq) fun q ch _ _ hcase => ?_
    rcases hcase with hwaits | ho
    · cases ch with
      | nread => exact .inl hwaits
      | nwrite => exact .inr rfl
    · rw [hp] at ho
      exact ho.elim

theorem not_dozes_wakeup1 (hinv : Inv s) (hfree : s.ptable = none) :
    ¬ (s.wakeup1 ch).Dozes q ch := by
  rintro ⟨hon, hasleep⟩
  rcases Pc.sleepsOn_cases hon with hat | ⟨l, hl, hch⟩
  · have htable := hinv.table
    rw [hfree] at htable
    exact Bool.false_ne_true ((htable.outside q).symm.trans hat)
  · obtain ⟨hs, -, hne⟩ := wakeup1_sleeping (hasleep l hl)
    obtain ⟨l', hl', hchan⟩ := hinv.asleep q hs
    obtain rfl : l = l' := Pc.asleep.inj (hl.symm.trans hl')
    exact hne (hchan.trans (congrArg some hch))

theorem Watched.wakeup (h : Watched s) (hinv : Inv s) {k : Next} (hp : s.pc p = .waking ch k)
    (hfree : s.ptable = none) : Watched ((s.wakeup1 ch).goto p k.pc) := by
  have hk : k.pc.sleepsOn = none := by
    cases k with
    | sleep l => rfl
    | ret r => rfl
  refine h.goOn rfl hk (fun q _ hq => (wakeup1_sleeping hq).1) fun q ch' hq _ hcase => .inl ?_
  rcases hcase with hwaits | ho
  · exact hwaits
  · rw [hp] at ho
    obtain rfl : ch' = ch := ho
    have hq' : (s.wakeup1 ch').Dozes q ch' :=
      dozes_of_move (t := (s.wakeup1 ch').goto p k.pc) rfl hk (fun _ _ hs => hs) hq
    exact absurd hq' (not_dozes_wakeup1 hinv hfree)

theorem Watched.leave (h : Watched s) {r : Return} (hp : s.pc p = .returning r) :
    Watched (s.leave p r) := by
  cases r with
  | write | read => exact h.stay hp rfl rfl (fun _ _ hq => hq) rfl fun _ ho => ho.elim
  | close =>
    rw [State.leave]
    split
    · exact h.stay hp rfl rfl (fun _ _ hq => hq) rfl fun _ ho => ho.elim
    · exact h.stay hp rfl rfl (fun _ _ hq => hq) rfl fun _ ho => ho.elim

theorem Watched.sleep (h : Watched s) {a : Pc} (hp : s.pc p = a) (ha : ∀ ch, ¬ a.Owes ch)
    (hpc : t.pc = update s.pc p c) (hpipe : t.pipe = s.pipe)
    (hproc : ∀ q, q ≠ p → (t.proc q).state = .sleeping → (s.proc q).state = .sleeping)
    (hself : ∀ ch, t.Dozes p ch → s.Dozes p ch ∨ ch.Waits t.pipe) : Watched t := by
  refine h.move hpc (fun q ch hq => ?_) fun q ch _ hcase => .inl ?_
  · by_cases hqp : q = p
    · rw [hqp] at hq ⊢
      exact hself ch hq
    · obtain ⟨hon, hasleep⟩ := hq
      rw [hpc, update_of_ne hqp] at hon hasleep
      exact .inl ⟨hon, fun l hl => hproc q hqp (hasleep l hl)⟩
  · rw [hpipe]
    rw [hp] at hcase
    exact hcase.resolve_right (ha ch)

theorem Watched.sleepLock (h : Watched s) (hinv : Inv s) (hp : s.pc p = .sleepLock l) :
    Watched ({ s with ptable := some p }.goto p (.sleepRelease l)) := by
  have hok := hinv.ok p
  rw [hp] at hok
  refine h.sleep hp (fun _ => id) rfl rfl (fun _ _ hq => hq) fun ch hdoze => .inr ?_
  obtain rfl : l.chan = ch := by simpa [goto] using hdoze.1
  exact hok

theorem Watched.sleepRelease (h : Watched s) (hp : s.pc p = .sleepRelease l) :
    Watched ({ s with lock := none }.goto p (.sleepSet l)) := by
  refine h.sleep hp (fun _ => id) rfl rfl (fun _ _ hq => hq) fun ch hdoze => .inl ⟨?_, ?_⟩
  · rw [hp]
    simpa [goto] using hdoze.1
  · simp [hp]

theorem Watched.sleepSet (h : Watched s) (hp : s.pc p = .sleepSet l) :
    Watched (({ s with ptable := none }.setProc p
      { s.proc p with chan := some l.chan, state := .sleeping }).goto p (.asleep l)) := by
  refine h.sleep hp (fun _ => id) rfl rfl (fun q hqp hq => ?_) fun ch hdoze => .inl ⟨?_, ?_⟩
  · simpa [goto, setProc, hqp] using hq
  · rw [hp]
    simpa [goto] using hdoze.1
  · simp [hp]

theorem Watched.resume (h : Watched s) (hp : s.pc p = .asleep l) :
    Watched ((s.setProc p { s.proc p with chan := none, state := .running }).goto p
      (.sleepRelock l)) := by
  refine h.stay hp rfl rfl (fun q hqp hq => ?_) rfl fun _ ho => ho.elim
  simpa [goto, setProc, hqp] using hq

theorem Watched.acquire (h : Watched s) {a : Pc} (hp : s.pc p = a) (ha : ∀ ch, ¬ a.Owes ch)
    (hc : c.sleepsOn = none) : Watched ({ s with lock := some p }.goto p c) :=
  h.stay hp rfl hc (fun _ _ hq => hq) rfl fun ch ho => absurd ho (ha ch)

theorem Watched.run (h : Watched s) (hinv : Inv s)
    (hprompt : s.GivesUp p → ∀ q, ¬ s.Dozes q .nread) (hrun : s.run p = some t) : Watched t := by
  rw [State.run] at hrun
  split at hrun
  case h_1 => cases hrun
  case h_2 cl hp =>
    obtain ⟨-, rfl⟩ := ite_some_none_eq_some.1 hrun
    cases cl <;> exact h.acquire hp (fun _ => id) rfl
  case h_3 hp => exact some.inj hrun ▸ h.pipewrite hp hprompt
  case h_4 hp => exact some.inj hrun ▸ h.pipereadTest hp
  case h_5 hp => exact some.inj hrun ▸ h.pipereadCopy hp
  case h_6 hp => exact some.inj hrun ▸ h.pipeclose hp
  case h_7 hp =>
    obtain ⟨hfree, rfl⟩ := ite_some_none_eq_some.1 hrun
    exact h.wakeup hinv hp hfree
  case h_8 hp => exact some.inj hrun ▸ h.leave hp
  case h_9 hp =>
    obtain ⟨-, rfl⟩ := ite_some_none_eq_some.1 hrun
    exact h.sleepLock hinv hp
  case h_10 hp => exact some.inj hrun ▸ h.sleepRelease hp
  case h_11 hp => exact some.inj hrun ▸ h.sleepSet hp
  case h_12 hp =>
    obtain ⟨-, rfl⟩ := ite_some_none_eq_some.1 hrun
    exact h.resume hp
  case h_13 l hp =>
    obtain ⟨-, rfl⟩ := ite_some_none_eq_some.1 hrun
    cases l <;> exact h.acquire hp (fun _ => id) rfl

theorem Watched.kill (h : Watched s) (p : P) : Watched (s.kill p) := by
  intro q ch hq
  refine h q ch ⟨hq.1, fun l hl => ?_⟩
  have hs := hq.2 l hl
  by_cases hqp : q = p
  · rw [hqp] at hs
    exact absurd (by simpa [State.kill, State.setProc] using hs) (kill_state_ne s p)
  · simpa [State.kill, State.setProc, hqp] using hs

/-- Nobody dozes on `nread` when `pipewrite` gives up. -/
def Prompt (s : State P) : Event P → Prop
  | .run p => s.GivesUp p → ∀ q, ¬ s.Dozes q .nread
  | .call _ _ | .kill _ => True

theorem step_watched (e : Event P) (h : Watched s) (hinv : Inv s) (he : Prompt s e)
    (hstep : step s e = some t) : Watched t := by
  obtain ⟨-, hstep⟩ := ite_none_left_eq_some.1 hstep
  cases e with
  | call p cl =>
    simp only at hstep
    split at hstep
    · rename_i r hp
      cases hstep
      exact h.stay hp rfl rfl (fun _ _ hq => hq) rfl fun _ ho => ho.elim
    · cases hstep
  | run p => exact h.run hinv he hstep
  | kill p =>
    obtain ⟨-, rfl⟩ := ite_some_none_eq_some.1 hstep
    exact h.kill p

/-- When both locks are free, whoever sleeps waits for something that has not
happened. -/
def NoLostWakeup (s : State P) : Prop :=
  s.lock = none → s.ptable = none → ∀ q, (s.proc q).state = .sleeping →
    ((s.proc q).chan = some .nread →
      s.pipe.ring.nread = s.pipe.ring.nwrite ∧ s.pipe.writeopen = true) ∧
    ((s.proc q).chan = some .nwrite →
      s.pipe.ring.nwrite = s.pipe.ring.nread + BitVec.ofNat 32 pipeSize ∧
        s.pipe.readopen = true)

theorem Watched.waits (h : Watched s) (hinv : Inv s) (hlock : s.lock = none)
    (hs : (s.proc q).state = .sleeping) (hch : (s.proc q).chan = some ch) : ch.Waits s.pipe := by
  obtain ⟨l, hl, hlch⟩ := hinv.asleep q hs
  have hdoze : s.Dozes q ch := by
    refine ⟨?_, fun _ _ => hs⟩
    rw [hl, ← hch, hlch]
    rfl
  rcases h q ch hdoze with hwaits | ⟨p, hp⟩
  · exact hwaits
  · have hguards := hinv.lock
    rw [hlock] at hguards
    exact absurd ((hguards.outside p).symm.trans (Pc.inside_of_owes hp)) Bool.false_ne_true

/-- In every run in which nobody dozes on `nread` when `pipewrite` gives up on a full
pipe, no wakeup is lost. -/
theorem no_lost_wakeups {data : Fin pipeSize → Byte} {es : List (Event P)}
    (hes : Machine.Meets step Prompt (pipealloc P data) es)
    (hrun : Machine.run step (pipealloc P data) es = some s) : NoLostWakeup s := by
  have hboth : Inv s ∧ Watched s := by
    refine hes.invariant (I := fun s => Inv s ∧ Watched s) ⟨inv_pipealloc data, ?_⟩
      (fun _ e _ h he hstep => ⟨step_inv e h.1 hstep, step_watched e h.2 h.1 he hstep⟩) hrun
    rintro q ch ⟨hon, -⟩
    cases hon
  intro hlock _ q hs
  exact ⟨hboth.2.waits hboth.1 hlock hs, hboth.2.waits hboth.1 hlock hs⟩

/-- A writer of 513 bytes is killed while it stores them and gives up with nobody asleep;
another one falls asleep on the full pipe. -/
def writersOnly : List (Event (Fin 2)) :=
  .call 1 (.pipewrite (List.replicate 513 0)) :: .run 1 :: .kill 1 :: List.replicate 513 (.run 1) ++
    .call 0 (.pipewrite [1]) :: List.replicate 6 (.run 0)

theorem no_lost_wakeups_writersOnly :
    ∃ s, Machine.run step (pipealloc (Fin 2) fun _ => 0) writersOnly = some s ∧
      s.pc 1 = .out (some (-1)) ∧ s.lock = none ∧ s.ptable = none ∧
      (s.proc 0).state = .sleeping ∧ NoLostWakeup s := by
  obtain ⟨s, hs, hpc, hlock, htable, hstate⟩ : ∃ s, Machine.run step (pipealloc (Fin 2) fun _ => 0)
      writersOnly = some s ∧ s.pc 1 = .out (some (-1)) ∧ s.lock = none ∧ s.ptable = none ∧
      (s.proc 0).state = .sleeping := by decide +kernel
  refine ⟨s, hs, hpc, hlock, htable, hstate, no_lost_wakeups ?_ hs⟩
  have hawake : Machine.Meets step (fun s _ => ∀ q, (s.pc q).sleepsOn ≠ some .nread)
      (pipealloc (Fin 2) fun _ => 0) writersOnly := by decide +kernel
  refine hawake.mono ?_
  rintro s (⟨p, c⟩ | p | p) h
  · trivial
  · exact fun _ q hq => h q hq.1
  · trivial

/-- A reader falls asleep on the empty pipe. A writer of 513 bytes is killed while it
stores them, finds the pipe full, and returns without waking the reader up. -/
theorem killed_writer_leaves_reader_asleep :
    ∃ s, Machine.run step (pipealloc (Fin 2) fun _ => 0)
        (.call 0 (.piperead 1) :: List.replicate 5 (.run 0) ++
          .call 1 (.pipewrite (List.replicate 513 0)) :: .run 1 :: .kill 1 ::
            List.replicate 513 (.run 1)) = some s ∧
      s.pc 1 = .out (some (-1)) ∧ ¬ NoLostWakeup s := by
  obtain ⟨s, hs, hpc, hlock, htable, hstate, hchan, hne⟩ : ∃ s, Machine.run step
      (pipealloc (Fin 2) fun _ => 0) (.call 0 (.piperead 1) :: List.replicate 5 (.run 0) ++
      .call 1 (.pipewrite (List.replicate 513 0)) :: .run 1 :: .kill 1 :: List.replicate 513
      (.run 1)) = some s ∧ s.pc 1 = .out (some (-1)) ∧ s.lock = none ∧ s.ptable = none ∧
      (s.proc 0).state = .sleeping ∧ (s.proc 0).chan = some .nread ∧
      s.pipe.ring.nread ≠ s.pipe.ring.nwrite := by decide +kernel
  exact ⟨s, hs, hpc, fun hno => hne ((hno hlock htable 0 hstate).1 hchan).1⟩

end Xv6.Pipes
