import Xv6.Library.Mutex
import Xv6.Pipes.Model

/-!
# A pipe is a reliable FIFO

`p->lock` and `ptable.lock` guard the program points at which a process holds them,
and at some of them the holder relies on what it has tested: that the pipe is full
when it goes to sleep in `pipewrite`, or that it was not empty or had no writer when
`piperead` began to copy. Only the holder of `p->lock` changes the pipe, so these
assertions stay true while others move. It is also the holder that has the bytes which a
`piperead` under way has taken out.
-/

namespace Xv6.Pipes

open Mutex Function Option State List

variable {l : Loop}

@[simp] def Pc.inside : Pc → Bool
  | .storing _ _ | .testing _ | .copying _ _ | .closing _ | .waking _ _ | .returning _
  | .sleepLock _ | .sleepRelease _ => true
  | .out _ | .entry _ | .sleepSet _ | .asleep _ | .sleepRelock _ => false

@[simp] def Pc.atTable : Pc → Bool
  | .sleepRelease _ | .sleepSet _ => true
  | .out _ | .entry _ | .storing _ _ | .testing _ | .copying _ _ | .closing _ | .waking _ _
  | .returning _ | .sleepLock _ | .asleep _ | .sleepRelock _ => false

def Chan.Waits (π : Pipe) : Chan → Prop
  | .nread => π.ring.Empty ∧ π.writeopen = true
  | .nwrite => π.ring.Full ∧ π.readopen = true

@[simp] def Pc.Ok (π : Pipe) : Pc → Prop
  | .copying _ addr => addr = [] → ¬ π.ring.Empty ∨ π.writeopen = false
  | .waking _ (.ret (.read n addr)) | .returning (.read n addr) =>
    0 < n → addr = [] → π.ring.Empty ∧ π.writeopen = false
  | .waking _ (.sleep l) | .sleepLock l | .sleepRelease l => l.chan.Waits π
  | .out _ | .entry _ | .storing _ _ | .testing _ | .closing _ | .waking _ (.ret (.write _))
  | .waking _ (.ret .close) | .returning (.write _) | .returning .close | .sleepSet _
  | .asleep _ | .sleepRelock _ => True

theorem Pc.ok_of_outside {c : Pc} (hc : c.inside = false) (π : Pipe) : c.Ok π := by
  cases c with
  | out | entry | sleepSet | asleep | sleepRelock => trivial
  | _ => cases hc

/-- The bytes that a `piperead` under way has copied to its buffer. -/
def Pc.taken : Pc → List Byte
  | .copying _ addr | .waking _ (.ret (.read _ addr)) | .returning (.read _ addr) => addr
  | _ => []

def Loop.given : Loop → List Byte
  | .write addr i => addr.take i
  | .read _ => []

/-- The part of its buffer that a `pipewrite` under way has stored. -/
def Pc.given : Pc → List Byte
  | .storing addr i => addr.take i
  | .waking _ (.sleep l) | .sleepLock l | .sleepRelease l | .sleepSet l | .asleep l
  | .sleepRelock l => l.given
  | .waking _ (.ret (.write addr)) | .returning (.write addr) => addr
  | _ => []

variable {P : Type*} {s t : State P} {p q : P} {a c : Pc}

def State.SleepsInside (s : State P) (q : P) : Prop :=
  (s.proc q).state = .sleeping → ∃ l, s.pc q = .asleep l ∧ (s.proc q).chan = some l.chan

def State.bytes (s : State P) : List Byte := s.stored.map Prod.snd

def State.taken (s : State P) : List Byte := s.lock.elim [] fun p => (s.pc p).taken

theorem taken_of_lock (hlock : s.lock = some p) (hp : s.pc p = c) : s.taken = c.taken := by
  rw [taken, hlock, ← hp]
  rfl

variable [DecidableEq P]

def State.storedBy (s : State P) (p : P) : List Byte :=
  (s.stored.filter fun x => x.1 = p).map Prod.snd

/-- The pipe has the bytes that are stored and not yet taken out, and they come from the
buffers of the writers. -/
structure Ledger (s : State P) : Prop where
  ring : s.pipe.ring.Represents s.bytes (s.delivered ++ s.taken)
  source : ∀ p, s.storedBy p = s.sent p ++ (s.pc p).given

theorem Ledger.move (h : Ledger s) (hpc : t.pc = update s.pc p c)
    (hring : t.pipe.ring = s.pipe.ring) (hstored : t.stored = s.stored)
    (hsent : ∀ q, q ≠ p → t.sent q = s.sent q)
    (hgiven : t.sent p ++ c.given = s.sent p ++ (s.pc p).given)
    (htaken : t.delivered ++ t.taken = s.delivered ++ s.taken) : Ledger t := by
  refine ⟨?_, fun q => ?_⟩
  · rw [hring, bytes, hstored, htaken]
    exact h.ring
  · rw [storedBy, hstored, hpc]
    by_cases hq : q = p
    · rw [hq, update_self, hgiven]
      exact h.source p
    · rw [update_of_ne hq, hsent q hq]
      exact h.source q

def SameBytes (s t : State P) : Prop :=
  t.pipe.ring = s.pipe.ring ∧ t.stored = s.stored ∧ t.sent = s.sent ∧ t.delivered = s.delivered

theorem Ledger.stay (h : Ledger s) (hp : s.pc p = a) (hpc : t.pc = update s.pc p c)
    (hlock : t.lock = s.lock) (hsame : SameBytes s t) (hgiven : c.given = a.given)
    (htaken : c.taken = a.taken) : Ledger t := by
  subst hp
  obtain ⟨hring, hstored, hsent, hdelivered⟩ := hsame
  refine h.move hpc hring hstored (fun q _ => by rw [hsent]) (by rw [hsent, hgiven]) ?_
  rw [hdelivered, taken, taken, hlock, hpc]
  cases s.lock with
  | none => rfl
  | some q =>
    by_cases hq : q = p
    · subst hq
      simp only [elim_some, update_self, htaken]
    · simp only [elim_some, update_of_ne hq]

structure Inv (s : State P) : Prop where
  lock : Guards s.lock Pc.inside s.pc
  table : Guards s.ptable Pc.atTable s.pc
  asleep : ∀ q, s.SleepsInside q
  ok : ∀ q, (s.pc q).Ok s.pipe
  ledger : Ledger s

theorem Inv.move (h : Inv s) (hpc : t.pc = update s.pc p c)
    (hlock : Guards t.lock Pc.inside t.pc) (htable : Guards t.ptable Pc.atTable t.pc)
    (hasleep : ∀ q, t.SleepsInside q) (hpipe : (s.pc p).inside = true ∨ t.pipe = s.pipe)
    (hok : c.Ok t.pipe) (hledger : Ledger t) : Inv t := by
  refine ⟨hlock, htable, hasleep, fun q => ?_, hledger⟩
  by_cases hq : q = p
  · rw [hq, hpc, update_self]
    exact hok
  · rw [hpc, update_of_ne hq]
    rcases hpipe with hin | heq
    · refine Pc.ok_of_outside ?_ _
      by_contra hqin
      exact hq (h.lock.eq (eq_true_of_ne_false hqin) hin)
    · rw [heq]
      exact h.ok q

theorem Inv.sleepsInside (h : Inv s) (hp : ∀ l, s.pc p ≠ .asleep l) (hpc : t.pc = update s.pc p c)
    (hproc : ∀ q, (t.proc q).state = .sleeping →
      (s.proc q).state = .sleeping ∧ (t.proc q).chan = (s.proc q).chan) (q : P) :
    t.SleepsInside q := by
  intro hq
  obtain ⟨hold, hchan⟩ := hproc q hq
  obtain ⟨l, hl, hlc⟩ := h.asleep q hold
  have hqp : q ≠ p := by
    rintro rfl
    exact hp l hl
  refine ⟨l, ?_, hchan.trans hlc⟩
  rw [hpc, update_of_ne hqp, hl]

theorem Pc.ne_asleep (ha : a.inside = true) (l : Loop) : a ≠ .asleep l := by
  rintro rfl
  cases ha

section

variable (h : Inv s) (hp : s.pc p = a) (ha : a.inside = true) (hat : a.atTable = false)
  (hc : c.inside = true) (hct : c.atTable = false) (hpc : t.pc = update s.pc p c)
  (hlock : t.lock = s.lock) (htable : t.ptable = s.ptable)
include h hp ha hat hc hct hpc hlock htable

theorem Inv.inside (hproc : ∀ q, (t.proc q).state = .sleeping →
      (s.proc q).state = .sleeping ∧ (t.proc q).chan = (s.proc q).chan) (hok : c.Ok t.pipe)
    (hledger : Ledger t) : Inv t := by
  subst hp
  refine h.move hpc ?_ ?_ (h.sleepsInside (Pc.ne_asleep ha) hpc hproc) (.inl ha) hok hledger
  · rw [hpc, hlock]
    exact h.lock.stay (hc.trans ha.symm)
  · rw [hpc, htable]
    exact h.table.stay (hct.trans hat.symm)

theorem Inv.stay (hproc : t.proc = s.proc) (hok : c.Ok t.pipe) (hsame : SameBytes s t)
    (hgiven : c.given = a.given) (htaken : c.taken = a.taken) : Inv t := by
  refine h.inside hp ha hat hc hct hpc hlock htable (fun q hq => ?_) hok
    (h.ledger.stay hp hpc hlock hsame hgiven htaken)
  rw [hproc] at hq ⊢
  exact ⟨hq, rfl⟩

end

theorem Inv.taken_eq (h : Inv s) (hp : s.pc p = a) (ha : a.inside = true) : s.taken = a.taken :=
  taken_of_lock ((h.lock p).2 (hp ▸ ha)) hp

theorem Inv.give (h : Inv s) (hp : s.pc p = a) (ha : a.inside = true) (hat : a.atTable = false)
    {r : Option ℤ} (hpc : t.pc = update s.pc p (.out r)) (hlock : t.lock = none)
    (htable : t.ptable = s.ptable) (hproc : t.proc = s.proc) (hring : t.pipe.ring = s.pipe.ring)
    (hstored : t.stored = s.stored) (hsent : ∀ q, q ≠ p → t.sent q = s.sent q)
    (hgiven : t.sent p = s.sent p ++ a.given) (hdelivered : t.delivered = s.delivered ++ a.taken) :
    Inv t := by
  have htaken := h.taken_eq hp ha
  subst hp
  refine h.move hpc ?_ ?_ (h.sleepsInside (Pc.ne_asleep ha) hpc fun q hq => ?_) (.inl ha) trivial
    (h.ledger.move hpc hring hstored hsent ?_ ?_)
  · rw [hpc, hlock]
    exact h.lock.give ha rfl
  · rw [hpc, htable]
    exact h.table.stay hat.symm
  · rw [hproc] at hq ⊢
    exact ⟨hq, rfl⟩
  · exact (append_nil _).trans hgiven
  · rw [htaken, hdelivered, taken, hlock]
    exact append_nil _

theorem Inv.ret (h : Inv s) (hp : s.pc p = a) (ha : a.inside = true) (hat : a.atTable = false)
    (hgiven : a.given = []) (htaken : a.taken = []) (r : Option ℤ) : Inv (s.ret p r) := by
  refine h.give hp ha hat rfl rfl rfl rfl rfl rfl (fun _ _ => rfl) ?_ ?_
  · rw [hgiven, append_nil]
    rfl
  · rw [htaken, append_nil]
    rfl

theorem Inv.send (h : Inv s) (hp : s.pc p = a) (ha : a.inside = true) (hat : a.atTable = false)
    (htaken : a.taken = []) (r : Option ℤ) : Inv ((s.send p a.given).ret p r) := by
  refine h.give hp ha hat rfl rfl rfl rfl rfl rfl (fun q hq => update_of_ne hq ..)
    (update_self ..) ?_
  rw [htaken, append_nil]
  rfl

theorem pipeSize_lt : pipeSize < 2 ^ 32 := by decide

theorem pipeSize_dvd : pipeSize ∣ 2 ^ 32 := by decide

theorem Inv.store (h : Inv s) {addr : List Byte} {i : ℕ} {b : Byte}
    (hp : s.pc p = .storing addr i) (hb : addr[i]? = some b) (hfull : ¬ s.pipe.ring.Full) :
    Ledger ({ s.setRing (s.pipe.ring.put b) with stored := s.stored ++ [(p, b)] }.goto p
      (.storing addr (i + 1))) := by
  refine ⟨?_, fun q => ?_⟩
  · have hput := h.ledger.ring.put pipeSize_lt pipeSize_dvd hfull b
    have hbytes : s.bytes ++ [b] = (s.stored ++ [(p, b)]).map Prod.snd := by simp [bytes]
    have hlock := (h.lock p).2 (hp ▸ rfl)
    rw [hbytes, h.taken_eq hp rfl] at hput
    rwa [taken_of_lock (p := p) (by exact hlock) (update_self ..)]
  · have hq := h.ledger.source q
    by_cases hqp : q = p
    · subst hqp
      simp only [storedBy, hp, Pc.given] at hq
      simp [goto, setRing, storedBy, hq, Pc.given, take_add_one, hb]
    · simp only [storedBy] at hq
      simp [goto, setRing, storedBy, hq, hqp, Ne.symm hqp]

theorem Inv.pipewrite (h : Inv s) {addr : List Byte} {i : ℕ} (hp : s.pc p = .storing addr i) :
    Inv (s.pipewrite p addr i) := by
  rw [State.pipewrite]
  split
  · rename_i hnone
    refine h.stay hp rfl rfl rfl rfl rfl rfl rfl rfl trivial ⟨rfl, rfl, rfl, rfl⟩ ?_ rfl
    exact (take_of_length_le (getElem?_eq_none_iff.1 hnone)).symm
  · rename_i b hb
    split
    · rename_i hfull
      split
      · exact h.send hp rfl rfl rfl _
      · rename_i hgoes
        have hopen : s.pipe.readopen = true := eq_true_of_ne_false fun hr => hgoes (.inl hr)
        exact h.stay hp rfl rfl rfl rfl rfl rfl rfl rfl ⟨hfull, hopen⟩ ⟨rfl, rfl, rfl, rfl⟩ rfl rfl
    · rename_i hfull
      exact h.inside hp rfl rfl rfl rfl rfl rfl rfl (fun _ hq => ⟨hq, rfl⟩) trivial
        (h.store hp hb hfull)

theorem Inv.pipereadTest (h : Inv s) {n : ℤ} (hp : s.pc p = .testing n) :
    Inv (s.pipereadTest p n) := by
  rw [State.pipereadTest]
  split
  · rename_i hwaits
    split
    · exact h.ret hp rfl rfl rfl rfl _
    · exact h.stay hp rfl rfl rfl rfl rfl rfl rfl rfl hwaits ⟨rfl, rfl, rfl, rfl⟩ rfl rfl
  · rename_i hwaits
    rw [not_and_or, Bool.not_eq_true] at hwaits
    exact h.stay hp rfl rfl rfl rfl rfl rfl rfl rfl (fun _ => hwaits) ⟨rfl, rfl, rfl, rfl⟩ rfl rfl

theorem Inv.pipereadCopy (h : Inv s) {n : ℤ} {addr : List Byte}
    (hp : s.pc p = .copying n addr) : Inv (s.pipereadCopy p n addr) := by
  have hok := h.ok p
  rw [hp] at hok
  rw [State.pipereadCopy]
  split
  · split
    · rename_i hempty
      have hclosed : addr = [] → s.pipe.writeopen = false := fun haddr =>
        (hok haddr).resolve_left (not_not.2 hempty)
      exact h.stay hp rfl rfl rfl rfl rfl rfl rfl rfl
        (fun _ haddr => ⟨hempty, hclosed haddr⟩) ⟨rfl, rfl, rfl, rfl⟩ rfl rfl
    · rename_i hempty
      refine h.inside hp rfl rfl rfl rfl rfl rfl rfl (fun _ hq => ⟨hq, rfl⟩) (by simp)
        ⟨?_, fun q => ?_⟩
      · have hdrop := h.ledger.ring.drop pipeSize_lt pipeSize_dvd hempty
        have hlock := (h.lock p).2 (hp ▸ rfl)
        rw [h.taken_eq hp rfl, append_assoc] at hdrop
        rwa [taken_of_lock (p := p) (by exact hlock) (update_self ..)]
      · have hq := h.ledger.source q
        by_cases hqp : q = p
        · subst hqp
          simpa [goto, setRing, storedBy, hp, Pc.given] using hq
        · simpa [goto, setRing, storedBy, hqp] using hq
  · rename_i hn
    refine h.stay hp rfl rfl rfl rfl rfl rfl rfl rfl (fun hpos haddr => ?_)
      ⟨rfl, rfl, rfl, rfl⟩ rfl rfl
    rw [haddr] at hn
    exact absurd hpos hn

theorem Inv.pipeclose (h : Inv s) {writable : Bool} (hp : s.pc p = .closing writable) :
    Inv (s.pipeclose p writable) := by
  rw [State.pipeclose]
  split
  · exact h.stay hp rfl rfl rfl rfl rfl rfl rfl rfl trivial ⟨rfl, rfl, rfl, rfl⟩ rfl rfl
  · exact h.stay hp rfl rfl rfl rfl rfl rfl rfl rfl trivial ⟨rfl, rfl, rfl, rfl⟩ rfl rfl

omit [DecidableEq P] in
theorem wakeup1_sleeping {ch : Chan} (hq : ((s.wakeup1 ch).proc q).state = .sleeping) :
    (s.proc q).state = .sleeping ∧ ((s.wakeup1 ch).proc q).chan = (s.proc q).chan ∧
      (s.proc q).chan ≠ some ch := by
  simp only [wakeup1] at hq ⊢
  split at hq
  · cases hq
  · rename_i hnot
    rw [if_neg hnot]
    exact ⟨hq, rfl, fun hch => hnot ⟨hq, hch⟩⟩

section

variable (h : Inv s)
include h

theorem Inv.wakeup {ch : Chan} {k : Next} (hp : s.pc p = .waking ch k) :
    Inv ((s.wakeup1 ch).goto p k.pc) := by
  have hok := h.ok p
  rw [hp] at hok
  have hsleep : ∀ q, ((s.wakeup1 ch).proc q).state = .sleeping →
      (s.proc q).state = .sleeping ∧ ((s.wakeup1 ch).proc q).chan = (s.proc q).chan :=
    fun q hq => ⟨(wakeup1_sleeping hq).1, (wakeup1_sleeping hq).2.1⟩
  have hledger : Ledger ((s.wakeup1 ch).goto p k.pc) := by
    refine h.ledger.stay hp rfl rfl ⟨rfl, rfl, rfl, rfl⟩ ?_ ?_ <;>
      rcases k with l | (_ | _ | _) <;> rfl
  cases k with
  | sleep l => exact h.inside hp rfl rfl rfl rfl rfl rfl rfl hsleep hok hledger
  | ret r =>
    refine h.inside hp rfl rfl rfl rfl rfl rfl rfl hsleep ?_ hledger
    cases r with
    | write addr => trivial
    | read n addr => exact hok
    | close => trivial

theorem Inv.leave {r : Return} (hp : s.pc p = .returning r) : Inv (s.leave p r) := by
  cases r with
  | write addr => exact h.send hp rfl rfl rfl _
  | read n addr =>
    exact h.give hp rfl rfl rfl rfl rfl rfl rfl rfl (fun _ _ => rfl) (append_nil _).symm rfl
  | close =>
    rw [State.leave]
    split
    · have hret := h.ret hp rfl rfl rfl rfl none
      exact ⟨hret.lock, hret.table, hret.asleep, hret.ok, hret.ledger.ring, hret.ledger.source⟩
    · exact h.ret hp rfl rfl rfl rfl none

theorem Inv.acquire (hp : s.pc p = a) (ha : a.atTable = false) (hasleep : ∀ l, a ≠ .asleep l)
    (hfree : s.lock = none) (hc : c.inside = true) (hct : c.atTable = false) (hok : c.Ok s.pipe)
    (hgiven : c.given = a.given) (htaken : c.taken = []) :
    Inv ({ s with lock := some p }.goto p c) := by
  subst hp
  have hlock := h.lock
  rw [hfree] at hlock
  refine h.move rfl (hlock.take hc) (h.table.stay (hct.trans ha.symm))
    (h.sleepsInside hasleep rfl fun _ hq => ⟨hq, rfl⟩) (.inr rfl) hok
    (h.ledger.move (p := p) rfl rfl rfl (fun _ _ => rfl) (congrArg _ hgiven) ?_)
  rw [taken_of_lock (p := p) rfl (update_self ..), htaken, taken, hfree]
  rfl

theorem Inv.sleepLock (hp : s.pc p = .sleepLock l) (hfree : s.ptable = none) :
    Inv ({ s with ptable := some p }.goto p (.sleepRelease l)) := by
  have hok := h.ok p
  have htable := h.table
  rw [hp] at hok
  rw [hfree] at htable
  refine h.move rfl (h.lock.stay ?_) (htable.take rfl)
    (h.sleepsInside (p := p) ?_ rfl fun _ hq => ⟨hq, rfl⟩) (.inr rfl) hok
    (h.ledger.stay hp rfl rfl ⟨rfl, rfl, rfl, rfl⟩ rfl rfl)
  · rw [hp]
    rfl
  · simp [hp]

theorem Inv.sleepRelease (hp : s.pc p = .sleepRelease l) :
    Inv ({ s with lock := none }.goto p (.sleepSet l)) := by
  refine h.move rfl (h.lock.give ?_ rfl) (h.table.stay ?_)
    (h.sleepsInside (p := p) ?_ rfl fun _ hq => ⟨hq, rfl⟩) (.inr rfl) trivial
    (h.ledger.move (p := p) rfl rfl rfl (fun _ _ => rfl) (hp ▸ rfl) ?_)
  · rw [hp]
    rfl
  · rw [hp]
    rfl
  · simp [hp]
  · rw [h.taken_eq hp rfl]
    rfl

theorem Inv.sleepsInside_setProc {pr : Proc} (hproc : t.proc = update s.proc p pr)
    (hpc : t.pc = update s.pc p c)
    (hp : pr.state = .sleeping → ∃ l, c = .asleep l ∧ pr.chan = some l.chan) (q : P) :
    t.SleepsInside q := by
  rw [SleepsInside, hproc, hpc]
  by_cases hq : q = p
  · rw [hq, update_self, update_self]
    exact hp
  · rw [update_of_ne hq, update_of_ne hq]
    exact h.asleep q

theorem Inv.sleepSet (hp : s.pc p = .sleepSet l) :
    Inv (({ s with ptable := none }.setProc p
      { s.proc p with chan := some l.chan, state := .sleeping }).goto p (.asleep l)) := by
  refine h.move rfl (h.lock.stay ?_) (h.table.give ?_ rfl)
    (h.sleepsInside_setProc rfl rfl fun _ => ⟨l, rfl, rfl⟩) (.inr rfl) trivial
    (h.ledger.stay hp rfl rfl ⟨rfl, rfl, rfl, rfl⟩ rfl rfl)
  · rw [hp]
    rfl
  · rw [hp]
    rfl

theorem Inv.resume (hp : s.pc p = .asleep l) :
    Inv ((s.setProc p { s.proc p with chan := none, state := .running }).goto p
      (.sleepRelock l)) := by
  refine h.move rfl (h.lock.stay ?_) (h.table.stay ?_)
    (h.sleepsInside_setProc rfl rfl fun hrun => ?_) (.inr rfl) trivial
    (h.ledger.stay hp rfl rfl ⟨rfl, rfl, rfl, rfl⟩ rfl rfl)
  · rw [hp]
    rfl
  · rw [hp]
    rfl
  · cases hrun

theorem Inv.call {r : Option ℤ} (hp : s.pc p = .out r) (cl : Call) :
    Inv (s.goto p (.entry cl)) := by
  refine h.move rfl (h.lock.stay ?_) (h.table.stay ?_)
    (h.sleepsInside (p := p) ?_ rfl fun _ hq => ⟨hq, rfl⟩) (.inr rfl) trivial
    (h.ledger.stay hp rfl rfl ⟨rfl, rfl, rfl, rfl⟩ rfl rfl)
  · rw [hp]
    rfl
  · rw [hp]
    rfl
  · simp [hp]

end

omit [DecidableEq P] in
theorem kill_state_ne (s : State P) (p : P) :
    (if (s.proc p).state = .sleeping then .runnable else (s.proc p).state) ≠
      PTable.ProcState.sleeping := by
  split
  · simp
  · assumption

theorem Inv.kill (h : Inv s) (p : P) : Inv (s.kill p) := by
  have hpc : (s.kill p).pc = update s.pc p (s.pc p) :=
    (update_eq_self p s.pc).symm
  exact ⟨h.lock, h.table,
    h.sleepsInside_setProc rfl hpc fun hs => absurd hs (kill_state_ne s p), h.ok,
    h.ledger.ring, h.ledger.source⟩

theorem Inv.run (h : Inv s) (hrun : s.run p = some t) : Inv t := by
  rw [State.run] at hrun
  split at hrun
  case h_1 => cases hrun
  case h_2 cl hp =>
    obtain ⟨hfree, rfl⟩ := ite_some_none_eq_some.1 hrun
    cases cl <;> exact h.acquire hp rfl (by simp) hfree rfl rfl trivial rfl rfl
  case h_3 hp => exact some.inj hrun ▸ h.pipewrite hp
  case h_4 hp => exact some.inj hrun ▸ h.pipereadTest hp
  case h_5 hp => exact some.inj hrun ▸ h.pipereadCopy hp
  case h_6 hp => exact some.inj hrun ▸ h.pipeclose hp
  case h_7 hp =>
    obtain ⟨-, rfl⟩ := ite_some_none_eq_some.1 hrun
    exact h.wakeup hp
  case h_8 hp => exact some.inj hrun ▸ h.leave hp
  case h_9 hp =>
    obtain ⟨hfree, rfl⟩ := ite_some_none_eq_some.1 hrun
    exact h.sleepLock hp hfree
  case h_10 hp => exact some.inj hrun ▸ h.sleepRelease hp
  case h_11 hp => exact some.inj hrun ▸ h.sleepSet hp
  case h_12 hp =>
    obtain ⟨-, rfl⟩ := ite_some_none_eq_some.1 hrun
    exact h.resume hp
  case h_13 l hp =>
    obtain ⟨hfree, rfl⟩ := ite_some_none_eq_some.1 hrun
    cases l <;> exact h.acquire hp rfl (by simp) hfree rfl rfl trivial rfl rfl

theorem step_inv (e : Event P) (h : Inv s) (hstep : step s e = some t) : Inv t := by
  obtain ⟨-, hstep⟩ := ite_none_left_eq_some.1 hstep
  cases e with
  | call p cl =>
    simp only at hstep
    split at hstep
    · rename_i r hp
      cases hstep
      exact h.call hp cl
    · cases hstep
  | run p => exact h.run hstep
  | kill p =>
    obtain ⟨-, rfl⟩ := ite_some_none_eq_some.1 hstep
    exact h.kill p

theorem inv_pipealloc (data : Fin pipeSize → Byte) : Inv (pipealloc P data) := by
  refine ⟨fun p => ?_, fun p => ?_, fun q hq => ?_, fun q => trivial,
    RingBuffer.represents_nil data, fun _ => rfl⟩
  · exact iff_of_false (some_ne_none p).symm Bool.false_ne_true
  · exact iff_of_false (some_ne_none p).symm Bool.false_ne_true
  · cases hq

/-- What a reliable FIFO guarantees. -/
structure Fifo (s : State P) : Prop where
  /-- No more bytes than cells are inside. -/
  bound : (s.pipe.ring.nwrite - s.pipe.ring.nread).toNat ≤ pipeSize
  /-- The buffers that `piperead` has returned, with what a read under way has copied,
  are a beginning of the bytes stored, -/
  order : s.delivered ++ s.taken <+: s.bytes
  /-- and no byte of the rest is lost. -/
  rest : s.delivered.length + s.taken.length +
    (s.pipe.ring.nwrite - s.pipe.ring.nread).toNat = s.bytes.length
  /-- What a process has stored are the buffers that it has handed to `pipewrite`, and of
  the present one the part up to where the call has come. -/
  source : ∀ p, s.storedBy p = s.sent p ++ (s.pc p).given
  /-- `piperead` reports the end of the pipe at the end only. -/
  eof : ∀ p n addr t, s.pc p = .returning (.read n addr) → 0 < n →
    step s (.run p) = some t → t.pc p = .out (some 0) →
      s.delivered = s.bytes ∧ s.pipe.writeopen = false

theorem Inv.fifo (h : Inv s) : Fifo s := by
  have hsub := h.ledger.ring.toNat_sub pipeSize_lt
  have hle := h.ledger.ring.length_le
  have hbound := h.ledger.ring.bound
  rw [length_append] at hsub hle hbound
  refine ⟨by omega, h.ledger.ring.beginning, by omega, h.ledger.source, ?_⟩
  intro p n addr t hp hn hstep hret
  obtain ⟨-, hstep⟩ := ite_none_left_eq_some.1 hstep
  simp only [State.run, hp] at hstep
  cases hstep
  obtain rfl : addr = [] := by simpa [State.leave, State.ret, State.goto] using hret
  have hok := h.ok p
  rw [hp] at hok
  obtain ⟨hempty, hclosed⟩ := hok hn rfl
  have hall := (h.ledger.ring.empty_iff pipeSize_lt).1 hempty
  rw [h.taken_eq hp rfl, Pc.taken, append_nil] at hall
  exact ⟨hall, hclosed⟩

/-- In every run of a pipe, however the calls are interleaved, the pipe is a reliable
FIFO. -/
theorem pipe_fifo {data : Fin pipeSize → Byte} {es : List (Event P)}
    (hrun : Machine.run step (pipealloc P data) es = some s) : Fifo s :=
  (Machine.run_invariant (inv_pipealloc data) (fun _ e _ h => step_inv e h) hrun).fifo

theorem pipe_fifo_twoOfThree :
    ∃ s, Machine.run step (pipealloc (Fin 2) fun _ => 0)
        (.call 0 (.pipewrite [1, 2, 3]) :: List.replicate 7 (.run 0) ++
          .call 1 (.piperead 2) :: List.replicate 7 (.run 1)) = some s ∧
      s.pc 1 = .out (some 2) ∧ s.delivered = [1, 2] ∧ s.sent 0 = [1, 2, 3] ∧ Fifo s := by
  obtain ⟨s, hs, hpc, hdelivered, hsent⟩ : ∃ s, Machine.run step (pipealloc (Fin 2) fun _ => 0)
      (.call 0 (.pipewrite [1, 2, 3]) :: replicate 7 (.run 0) ++ .call 1 (.piperead 2) ::
      replicate 7 (.run 1)) = some s ∧ s.pc 1 = .out (some 2) ∧ s.delivered = [1, 2] ∧
      s.sent 0 = [1, 2, 3] := by decide +kernel
  exact ⟨s, hs, hpc, hdelivered, hsent, pipe_fifo hs⟩

end Xv6.Pipes
