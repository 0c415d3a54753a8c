import Xv6.PTable.Running

/-!
# What a step does to the process table

The system of `PTable/Model.lean` with one more event: a process traps in user mode, and
`trap` marks it as killed. `Change` lists what a step can do to the table and to the
`fork`s under way, with what is known of the processes concerned. A step is labelled with
its `Effect`, and the properties of the process tree and of `kill` follow from the changes
alone.
-/

namespace Xv6.PTable

open Function Option State

variable {C : Type*} {s t : State C} {c : C} {p q np : Slot} {chan : Chan} {x : ProcPc}

inductive Event (C : Type*) where
  | act (c : C) (a : Action)
  | trap (c : C)
  deriving DecidableEq

def State.trap (s : State C) (c : C) : Option (State C) :=
  match (s.cpu c).stack, (s.cpu c).proc with
  | some p, some curproc =>
    if s.halted = none ∧ s.pc p = .user ∧ s.fork p = .idle then
      some (s.setProc curproc fun x => { x with killed := true })
    else
      none
  | _, _ => none

def next [DecidableEq C] (s : State C) : Event C → Option (State C)
  | .act c a => step s (c, a)
  | .trap c => s.trap c

/-- What a step means for the history of the processes. -/
inductive Effect where
  | quiet
  | kill (pid : BitVec 32)
  | trap (p : Slot)
  | exit (p : Slot)
  /-- `wait` returns to `p` with its child `q`. -/
  | reap (p q : Slot)
  /-- `allocproc` gives the slot `np` to a `fork` of `p`. -/
  | alloc (p np : Slot)
  /-- A `fork` of `p` gives up, and `np` is free again. -/
  | fail (p np : Slot)
  deriving DecidableEq

def State.victim (s : State C) (pid : BitVec 32) : Option Slot :=
  (List.finRange nProc).find? fun q => (s.proc q).pid = pid

def State.killResult (s : State C) (pid : BitVec 32) : ℤ :=
  match s.victim pid with
  | some _ => 0
  | none => -1

def State.performEffect (s : State C) (p : Slot) : Path → Effect
  | .exit => .exit p
  | .wait =>
    match s.zombieChild p with
    | some q => .reap p q
    | none => .quiet
  | .kill pid => .kill pid
  | .allocproc =>
    match (List.finRange nProc).find? fun q => (s.proc q).state = .unused with
    | some np => .alloc p np
    | none => .quiet
  | .yield | .sleep _ | .wakeup _ | .start _ => .quiet

def State.failEffect (s : State C) (c : C) : Effect :=
  match (s.cpu c).stack with
  | some p =>
    match (s.fork p).child with
    | some np => .fail p np
    | none => .quiet
  | none => .quiet

def State.effect (s : State C) : Event C → Effect
  | .act c .update =>
    match (s.cpu c).stack, (s.cpu c).proc with
    | some p, some curproc =>
      match s.pc p with
      | .holding path => s.performEffect curproc path
      | _ => .quiet
    | _, _ => .quiet
  | .act c (.allocStack none) => s.failEffect c
  | .act c (.copyuvm none) => s.failEffect c
  | .act _ _ => .quiet
  | .trap c =>
    match (s.cpu c).proc with
    | some curproc => .trap curproc
    | none => .quiet

/-- In the table, and neither being built nor dead. -/
def ProcState.alive : ProcState → Bool
  | .sleeping | .runnable | .running => true
  | _ => false

theorem ProcState.live_iff {x : ProcState} : x.live = true ↔ x.alive = true ∨ x = .zombie := by
  cases x <;> decide

theorem ProcState.ne_unused_of_alive {x : ProcState} (h : x.alive) : x ≠ .unused := by
  rintro rfl
  cases h

theorem ProcState.ne_unused_of_live {x : ProcState} (h : x.live) : x ≠ .unused := by
  rintro rfl
  cases h

/-- The process is in the call of `sleep` in `wait`. -/
@[simp] def ProcPc.inWait : ProcPc → Bool
  | .sched .wait | .switched .wait => true
  | _ => false

/-- The step creates and ends no process, and leaves the tree as it is. -/
structure Keeps (s t : State C) : Prop where
  parent : ∀ q, (t.proc q).parent = (s.proc q).parent
  pid : ∀ q, (t.proc q).pid = (s.proc q).pid
  state : ∀ q, (t.proc q).state = (s.proc q).state ∨ (s.proc q).state.alive ∧ (t.proc q).state.alive
  fork : t.fork = s.fork

namespace Keeps

theorem alive (h : Keeps s t) (q : Slot) : (t.proc q).state.alive = (s.proc q).state.alive := by
  rcases h.state q with hq | ⟨hs, ht⟩
  · rw [hq]
  · rw [hs, ht]

theorem state_iff (h : Keeps s t) (q : Slot) {x : ProcState} (hx : x.alive = false) :
    (t.proc q).state = x ↔ (s.proc q).state = x := by
  rcases h.state q with hq | ⟨hs, ht⟩
  · rw [hq]
  · refine iff_of_false ?_ ?_ <;> rintro rfl <;> simp_all

theorem zombie (h : Keeps s t) (q : Slot) :
    (t.proc q).state = .zombie ↔ (s.proc q).state = .zombie :=
  h.state_iff q rfl

theorem live (h : Keeps s t) (q : Slot) :
    (t.proc q).state.live = true ↔ (s.proc q).state.live = true := by
  rw [ProcState.live_iff, ProcState.live_iff, h.alive, h.zombie]

theorem unused (h : Keeps s t) (q : Slot) :
    (t.proc q).state = .unused ↔ (s.proc q).state = .unused :=
  h.state_iff q rfl

end Keeps

/-- What `exit` does to the table. -/
structure Exits (s t : State C) (p : Slot) : Prop where
  running : (s.proc p).state = .running
  ne_init : p ≠ s.initproc
  idle : s.fork p = .idle
  fork : t.fork = s.fork
  parent : ∀ q, (t.proc q).parent =
    if (s.proc q).parent = some p then some s.initproc else (s.proc q).parent
  pid : ∀ q, (t.proc q).pid = (s.proc q).pid
  killed : ∀ q, (t.proc q).killed = (s.proc q).killed
  zombie : (t.proc p).state = .zombie
  others : ∀ q ≠ p, (t.proc q).state = (s.proc q).state ∨
    (s.proc q).state = .sleeping ∧ (t.proc q).state = .runnable
  wakesParent : ∀ q, (s.proc p).parent = some q → (s.proc q).chan = .proc q →
    (t.proc q).state ≠ .sleeping
  wakesInit : ∀ q, (s.proc q).parent = some p → (s.proc q).state = .zombie →
    (s.proc s.initproc).chan = .proc s.initproc → (t.proc s.initproc).state ≠ .sleeping

theorem Exits.unused (h : Exits s t p) (q : Slot) :
    (t.proc q).state = .unused ↔ (s.proc q).state = .unused := by
  by_cases hq : q = p
  · subst hq
    simp [h.zombie, h.running]
  · rcases h.others q hq with hsame | ⟨hsleep, hrunnable⟩
    · rw [hsame]
    · simp [hsleep, hrunnable]

/-- What one step does to the table. -/
inductive Change (s t : State C) : Effect → Prop where
  | keep (h : Keeps s t) (hkilled : ∀ q, (t.proc q).killed = (s.proc q).killed) :
      Change s t .quiet
  | kill (pid : BitVec 32) (h : Keeps s t) (hkilled : ∀ q, (t.proc q).killed =
        if s.victim pid = some q then true else (s.proc q).killed) :
      Change s t (.kill pid)
  | trap (p : Slot) (hp : (s.proc p).state = .running) (h : Keeps s t)
      (hkilled : ∀ q, (t.proc q).killed = if q = p then true else (s.proc q).killed) :
      Change s t (.trap p)
  | exit (p : Slot) (h : Exits s t p) : Change s t (.exit p)
  | reap (p q : Slot) (x : Proc) (hproc : t.proc = update s.proc q x)
      (hfork : t.fork = s.fork) (hp : (s.proc p).state = .running)
      (hparent : (s.proc q).parent = some p) (hq : (s.proc q).state = .zombie)
      (hx : x.state = .unused ∧ x.killed = false) : Change s t (.reap p q)
  | alloc (p np : Slot) (x : Proc) (hproc : t.proc = update s.proc np x)
      (hfork : t.fork = update s.fork p (.found np))
      (hp : (s.proc p).state = .running) (hnp : (s.proc np).state = .unused)
      (hx : x.state = .embryo ∧ x.pid = s.nextpid ∧ x.killed = (s.proc np).killed) :
      Change s t (.alloc p np)
  | build (p np : Slot) (x : Proc) (f : ForkPc) (hproc : t.proc = update s.proc np x)
      (hfork : t.fork = update s.fork p f) (hp : (s.fork p).child = some np)
      (hx : x.state = .embryo ∧ x.pid = (s.proc np).pid ∧ x.killed = (s.proc np).killed)
      (hf : f.child = some np) (hcopied : f = .copied np → x.parent = some p) :
      Change s t .quiet
  | fail (p np : Slot) (x : Proc) (hproc : t.proc = update s.proc np x)
      (hfork : t.fork = update s.fork p .idle) (hp : (s.fork p).child = some np)
      (hx : x.state = .unused ∧ x.killed = (s.proc np).killed) : Change s t (.fail p np)
  | start (p np : Slot) (hp : s.fork p = .copied np)
      (hproc : t.proc = update s.proc np { s.proc np with state := .runnable })
      (hfork : t.fork = update s.fork p .idle) : Change s t .quiet

/-- A process that sleeps in `wait` after the step did so before it, or has just found no
dead child. -/
def Asleep (s t : State C) : Prop :=
  ∀ q, (t.pc q).inWait → (t.proc q).state = .sleeping →
    (s.pc q).inWait ∧ (s.proc q).state = .sleeping ∧ (t.proc q).chan = (s.proc q).chan ∨
    (t.proc q).chan = .proc q ∧ ∀ r, (t.proc r).parent = some q → (t.proc r).state ≠ .zombie

structure Effects (s t : State C) (e : Effect) : Prop where
  initproc : t.initproc = s.initproc
  /-- Init does not get into `exit`. -/
  barred : t.pc s.initproc ≠ .holding .exit
  asleep : Asleep s t
  change : Change s t e

/-! ## The loop of exit -/

/-- The loop of `exit` over the slots `qs`. -/
structure Passes (p : Slot) (qs : List Slot) (s t : State C) : Prop where
  initproc : t.initproc = s.initproc
  parent : ∀ q, (t.proc q).parent =
    if q ∈ qs ∧ (s.proc q).parent = some p then some s.initproc else (s.proc q).parent
  same : ∀ q, (t.proc q).pid = (s.proc q).pid ∧ (t.proc q).killed = (s.proc q).killed ∧
    (t.proc q).chan = (s.proc q).chan
  state : ∀ q, (t.proc q).state = (s.proc q).state ∨
    (s.proc q).state = .sleeping ∧ (t.proc q).state = .runnable
  woken : ∀ q ∈ qs, (s.proc q).parent = some p → (s.proc q).state = .zombie →
    (s.proc s.initproc).chan = .proc s.initproc → (t.proc s.initproc).state ≠ .sleeping

theorem wakeup1_proc (s : State C) (chan : Chan) (q : Slot) :
    (s.wakeup1 chan).proc q = { s.proc q with
        state := if (s.proc q).state = .sleeping ∧ (s.proc q).chan = chan then .runnable
          else (s.proc q).state } := by
  simp only [wakeup1]
  split_ifs <;> rfl

theorem passToInit_proc (p q r : Slot) (s : State C) :
    (passToInit p s q).proc r =
      if (s.proc q).parent = some p then
        { s.proc r with
          parent := if r = q then some s.initproc else (s.proc r).parent
          state := if (s.proc q).state = .zombie ∧ (s.proc r).state = .sleeping ∧
              (s.proc r).chan = .proc s.initproc then .runnable else (s.proc r).state }
      else s.proc r := by
  unfold passToInit
  by_cases hparent : (s.proc q).parent = some p
  · by_cases hr : r = q
    · subst hr
      by_cases hz : (s.proc r).state = .zombie <;>
        simp [hparent, hz, setProc, wakeup1]
    · by_cases hz : (s.proc q).state = .zombie
      · by_cases hw : (s.proc r).state = .sleeping ∧ (s.proc r).chan = .proc s.initproc <;>
          simp [hparent, hr, hz, hw, setProc, wakeup1]
      · simp [hparent, hr, hz, setProc]
  · simp [hparent]

theorem passToInit_initproc (p q : Slot) (s : State C) :
    (passToInit p s q).initproc = s.initproc := by
  unfold passToInit
  split_ifs
  · dsimp only
    split_ifs <;> rfl
  · rfl

theorem passes_nil (p : Slot) (s : State C) : Passes p [] s s where
  initproc := rfl
  parent q := by simp
  same q := ⟨rfl, rfl, rfl⟩
  state q := .inl rfl
  woken q hq := by cases hq

theorem Passes.cons {qs : List Slot} (hp : p ≠ s.initproc)
    (h : Passes p qs (passToInit p s q) t) : Passes p (q :: qs) s t := by
  have hinit := passToInit_initproc p q s
  refine ⟨h.initproc.trans hinit, fun r => ?_, fun r => ?_, fun r => ?_, fun r hr => ?_⟩
  · have hparent := h.parent r
    rw [passToInit_proc, hinit] at hparent
    grind
  · have hsame := h.same r
    rw [passToInit_proc] at hsame
    grind
  · have hstate := h.state r
    rw [passToInit_proc] at hstate
    grind
  · have hstate := h.state s.initproc
    have hwoken := h.woken r
    simp only [passToInit_proc, hinit] at hstate hwoken
    rcases List.mem_cons.1 hr with rfl | hr
    · grind
    · grind

theorem passes_foldl {qs : List Slot} (hp : p ≠ s.initproc) :
    Passes p qs s (qs.foldl (passToInit p) s) := by
  induction qs generalizing s with
  | nil => exact passes_nil p s
  | cons q qs ih =>
    refine Passes.cons hp (ih ?_)
    rw [passToInit_initproc]
    exact hp

/-! ## The steps -/

theorem barred_update (hbar : s.pc s.initproc ≠ .holding .exit)
    (hx : p = s.initproc → x ≠ .holding .exit) : update s.pc p x s.initproc ≠ .holding .exit := by
  by_cases hp : s.initproc = p
  · rw [hp, update_self]
    exact hx hp.symm
  · rwa [update_of_ne hp]

theorem inWait_update (hx : x.inWait → (s.pc p).inWait) (q : Slot)
    (hq : (update s.pc p x q).inWait) : (s.pc q).inWait := by
  by_cases hqp : q = p
  · subst hqp
    exact hx (by simpa using hq)
  · rwa [update_of_ne hqp] at hq

theorem inWait_leave (hx : x.inWait = false) (q : Slot)
    (hq : (update s.pc p x q).inWait) : (s.pc q).inWait :=
  inWait_update (fun h => Bool.noConfusion (hx.symm.trans h)) q hq

theorem Asleep.of_pc (hpc : ∀ q, (t.pc q).inWait → (s.pc q).inWait)
    (hproc : ∀ q, (t.pc q).inWait → (t.proc q).state = .sleeping →
      (s.proc q).state = .sleeping ∧ (t.proc q).chan = (s.proc q).chan) : Asleep s t :=
  fun q hwait hsleep => .inl ⟨hpc q hwait, hproc q hwait hsleep⟩

theorem sleeping_of_update {f : Slot → Proc} {x : Proc} (hq : (update f p x q).state = .sleeping)
    (hx : x.state ≠ .sleeping) : (f q).state = .sleeping ∧ (update f p x q).chan = (f q).chan := by
  by_cases hqp : q = p
  · subst hqp
    exact absurd (by simpa using hq) hx
  · rw [update_of_ne hqp] at hq ⊢
    exact ⟨hq, rfl⟩

theorem keeps_update {x : Proc} (hproc : t.proc = update s.proc p x) (hfork : t.fork = s.fork)
    (hparent : x.parent = (s.proc p).parent) (hpid : x.pid = (s.proc p).pid)
    (hstate : x.state = (s.proc p).state ∨ (s.proc p).state.alive ∧ x.state.alive) : Keeps s t := by
  refine ⟨fun q => ?_, fun q => ?_, fun q => ?_, hfork⟩
  all_goals
    rw [hproc]
    by_cases hqp : q = p
    · subst hqp
      simpa
    · simp [hqp]

theorem killed_update {x : Proc} (hproc : t.proc = update s.proc p x)
    (hkilled : x.killed = (s.proc p).killed) (q : Slot) :
    (t.proc q).killed = (s.proc q).killed := by
  rw [hproc]
  by_cases hqp : q = p
  · subst hqp
    simpa
  · simp [hqp]

theorem keeps_wakeup1 (hproc : t.proc = (s.wakeup1 chan).proc)
    (hfork : t.fork = s.fork) : Keeps s t := by
  refine ⟨fun q => ?_, fun q => ?_, fun q => ?_, hfork⟩
  all_goals rw [hproc, wakeup1_proc]
  split_ifs with hq
  · rw [hq.1]
    exact .inr ⟨rfl, rfl⟩
  · exact .inl rfl

theorem killed_wakeup1 (hproc : t.proc = (s.wakeup1 chan).proc) (q : Slot) :
    (t.proc q).killed = (s.proc q).killed := by
  rw [hproc, wakeup1_proc]

theorem sleeping_of_wakeup1 (hq : ((s.wakeup1 chan).proc q).state = .sleeping) :
    (s.proc q).state = .sleeping ∧ ((s.wakeup1 chan).proc q).chan = (s.proc q).chan := by
  rw [wakeup1_proc] at hq ⊢
  split_ifs at hq
  exact ⟨hq, rfl⟩

/-- The table that `exit` leaves: it wakes the parent, passes the children on and marks `p`
as dead. -/
theorem exit_eq (hp : p ≠ s.initproc) :
    ∃ g, Wakes (s.wakeup1 (parentChan (s.proc p).parent)).proc g ∧
      Passes p (List.finRange nProc) (s.wakeup1 (parentChan (s.proc p).parent))
        { s with proc := g } ∧
      s.exit p = { s with
        proc := update g p { g p with state := .zombie }
        pc := update s.pc p (.sched .exit) } := by
  have hpasses : Passes p (List.finRange nProc)
      (s.wakeup1 (parentChan (s.proc p).parent)) _ := passes_foldl hp
  obtain ⟨g, hg, hfold⟩ := foldl_passToInit p
    (s.wakeup1 (parentChan (s.proc p).parent)) (List.finRange nProc)
  rw [hfold] at hpasses
  refine ⟨g, hg, hpasses, ?_⟩
  simp only [exit, hfold]
  rfl

theorem exits (hrun : (s.proc p).state = .running) (hidle : s.fork p = .idle)
    (hp : p ≠ s.initproc) : Exits s (s.exit p) p := by
  obtain ⟨g, hg, hpasses, hexit⟩ := exit_eq hp
  have hfield : ∀ q, ((s.exit p).proc q).parent = (g q).parent ∧
      ((s.exit p).proc q).pid = (g q).pid ∧ ((s.exit p).proc q).killed = (g q).killed := by
    intro q
    rw [hexit]
    by_cases hqp : q = p
    · subst hqp
      simp
    · simp [hqp]
  refine ⟨hrun, hp, hidle, ?_, fun q => ?_, fun q => ?_, fun q => ?_, ?_, fun q hqp => ?_, ?_, ?_⟩
  · rw [hexit]
  · have hparent := hpasses.parent q
    simp only [List.mem_finRange, true_and, wakeup1_proc] at hparent
    exact (hfield q).1.trans hparent
  · have hsame := (hpasses.same q).1
    rw [wakeup1_proc] at hsame
    exact (hfield q).2.1.trans hsame
  · have hsame := (hpasses.same q).2.1
    rw [wakeup1_proc] at hsame
    exact (hfield q).2.2.trans hsame
  · simp [hexit]
  · rw [hexit]
    simpa [hqp] using (((wakes_wakeup1 s _).trans hg) q).2.2
  · -- the parent has been woken before the loop
    intro q hparent hchan hq
    rw [hexit] at hq
    have hsleep := hg.sleeping (sleeping_of_update hq (by simp)).1
    simp only [wakeup1_proc, hparent, parentChan, hchan, and_true] at hsleep
    split_ifs at hsleep with hwoken
    exact hwoken hsleep
  · -- init has been woken by the loop
    intro q hparent hzombie hchan hq
    rw [hexit] at hq
    refine hpasses.woken q (List.mem_finRange q) ?_ ?_ ?_ (sleeping_of_update hq (by simp)).1
    · simp [wakeup1_proc, hparent]
    · simp [wakeup1_proc, hzombie]
    · rw [wakeup1_proc]
      exact hchan

namespace Effects

variable (hbar : s.pc s.initproc ≠ .holding .exit)

theorem still {e : Effect} (hinit : t.initproc = s.initproc) (hproc : t.proc = s.proc)
    (hpc : ∀ q, (t.pc q).inWait → (s.pc q).inWait) (hbar' : t.pc s.initproc ≠ .holding .exit)
    (hchange : Change s t e) : Effects s t e :=
  ⟨hinit, hbar', .of_pc hpc fun q _ hq => by rw [hproc] at hq ⊢; exact ⟨hq, rfl⟩, hchange⟩

theorem change_still (hproc : t.proc = s.proc) (hfork : t.fork = s.fork) : Change s t .quiet := by
  refine .keep ⟨?_, ?_, ?_, hfork⟩ ?_ <;> intro q <;> rw [hproc]
  exact .inl rfl

include hbar

theorem goto (hx : p = s.initproc → x ≠ .holding .exit) (hwait : x.inWait → (s.pc p).inWait)
    (hinit : t.initproc = s.initproc) (hproc : t.proc = s.proc) (hfork : t.fork = s.fork)
    (hpc : t.pc = update s.pc p x) : Effects s t .quiet := by
  refine still hinit hproc ?_ ?_ (change_still hproc hfork)
  · rw [hpc]
    exact inWait_update hwait
  · rw [hpc]
    exact barred_update hbar hx

theorem same (hinit : t.initproc = s.initproc) (hproc : t.proc = s.proc)
    (hfork : t.fork = s.fork) (hpc : t.pc = s.pc) : Effects s t .quiet :=
  still hinit hproc (by simp [hpc]) (by rwa [hpc]) (change_still hproc hfork)

/-- The step leaves one process changed, which does not sleep. -/
theorem write {y : Proc} {e : Effect} (hinit : t.initproc = s.initproc) (hpc : t.pc = s.pc)
    (hproc : t.proc = update s.proc q y) (hy : y.state ≠ .sleeping) (hchange : Change s t e) :
    Effects s t e := by
  refine ⟨hinit, by rwa [hpc], .of_pc (by simp [hpc]) fun r _ hr => ?_, hchange⟩
  rw [hproc] at hr ⊢
  exact sleeping_of_update hr hy

theorem writeGoto {y : Proc} {e : Effect} (hinit : t.initproc = s.initproc)
    (hpc : t.pc = update s.pc p x) (hx : x ≠ .holding .exit) (hwait : x.inWait = false)
    (hproc : t.proc = update s.proc q y) (hy : y.state ≠ .sleeping) (hchange : Change s t e) :
    Effects s t e := by
  refine ⟨hinit, ?_, .of_pc ?_ fun r _ hr => ?_, hchange⟩
  · rw [hpc]
    exact barred_update hbar fun _ => hx
  · rw [hpc]
    exact inWait_leave hwait
  · rw [hproc] at hr ⊢
    exact sleeping_of_update hr hy

section Scheduler

variable [DecidableEq C]

theorem schedAcquire (hs : s.schedAcquire c = some t) : Effects s t .quiet := by
  obtain ⟨-, rfl⟩ := ite_some_none_eq_some.1 hs
  exact same hbar rfl rfl rfl rfl

theorem schedRelease (hs : s.schedRelease c = some t) : Effects s t .quiet := by
  obtain ⟨-, rfl⟩ := ite_some_none_eq_some.1 hs
  exact same hbar rfl rfl rfl rfl

theorem clearProc (hs : s.clearProc c = some t) : Effects s t .quiet := by
  obtain ⟨-, rfl⟩ := ite_some_none_eq_some.1 hs
  exact same hbar rfl rfl rfl rfl

omit [DecidableEq C] in
theorem schedWakeup (hs : s.schedWakeup c chan = some t) : Effects s t .quiet := by
  obtain ⟨-, rfl⟩ := ite_some_none_eq_some.1 hs
  refine ⟨rfl, hbar, .of_pc (fun _ => id) fun q _ => sleeping_of_wakeup1,
    .keep (keeps_wakeup1 rfl rfl) (killed_wakeup1 rfl)⟩

theorem runProc (hs : s.runProc c p = some t) : Effects s t .quiet := by
  rw [State.runProc, ite_none_right_eq_some] at hs
  obtain ⟨⟨-, -, hp⟩, hs⟩ := hs
  split_ifs at hs
  · cases hs
    exact same hbar rfl rfl rfl rfl
  · cases hs
    exact same hbar rfl rfl rfl rfl
  · cases hs
    exact write hbar rfl rfl rfl (by simp)
      (.keep (keeps_update rfl rfl rfl rfl (.inr ⟨hp ▸ rfl, rfl⟩)) (killed_update rfl rfl))

end Scheduler

section Process

variable (h : Inv s) (hstack : (s.cpu c).stack = some p) (hrun : (s.proc p).state = .running)

theorem release (hs : s.release c = some t) : Effects s t .quiet := by
  rw [State.release] at hs
  split at hs
  case h_2 => cases hs
  case h_1 p hstack =>
    obtain ⟨-, rfl⟩ := ite_some_none_eq_some.1 hs
    exact goto hbar (p := p) (x := .user) (by simp) (by simp) rfl rfl rfl rfl

theorem acquire (h : Inv s) {path : Path} (hs : s.acquire c path = some t) :
    Effects s t .quiet := by
  rw [State.acquire] at hs
  split at hs
  case h_2 => cases hs
  case h_1 p hstack =>
    obtain ⟨-, hs⟩ := ite_none_right_eq_some.1 hs
    split_ifs at hs with hexit
    · cases hs
      exact same hbar rfl rfl rfl rfl
    · cases hs
      refine goto hbar (p := p) (x := .holding path) ?_ (by simp) rfl rfl rfl rfl
      -- only init is kept out, and it is the process on whose stack the CPU is
      intro hp hpath
      exact hexit ⟨ProcPc.holding.inj hpath, hp ▸ h.current_of_stack hstack⟩

theorem swtch [DecidableEq C] (hs : s.swtch c = some t) : Effects s t .quiet := by
  rw [State.swtch] at hs
  split at hs
  case h_2 => cases hs
  case h_1 p hstack =>
    split at hs
    case h_2 => cases hs
    case h_1 r hpc =>
      split_ifs at hs
      · cases hs
        exact same hbar rfl rfl rfl rfl
      · cases hs
        exact same hbar rfl rfl rfl rfl
      · cases hs
        refine goto hbar (p := p) (x := .switched r) (by simp) ?_ rfl rfl rfl rfl
        rw [hpc]
        cases r <;> exact id

theorem clearChan (hrun : (s.proc p).state = .running)
    (hx : x ≠ .holding .exit) (hwait : x.inWait = false) :
    Effects s ((s.setProc p fun q => { q with chan := .null }).goto p x) .quiet :=
  writeGoto hbar rfl rfl hx hwait rfl (by simp [hrun])
    (.keep (keeps_update rfl rfl rfl rfl (.inl rfl)) (killed_update rfl rfl))

theorem resume (h : Inv s) (hs : s.resume c = some t) : Effects s t .quiet := by
  rw [State.resume] at hs
  split at hs
  case h_2 => cases hs
  case h_1 p hstack =>
    have hhold := h.holding hstack
    split at hs
    case h_1 hpc | h_2 hpc =>
      cases hs
      exact goto hbar (p := p) (x := .releasing) (by simp) (by simp) rfl rfl rfl rfl
    case h_3 hpc | h_4 hpc =>
      cases hs
      exact clearChan hbar (hhold (by simp [hpc]) (by simp [hpc])).2 (by simp) rfl
    case h_5 hpc =>
      cases hs
      exact same hbar rfl rfl rfl rfl
    case h_6 => cases hs

include hrun

theorem yield : Effects s (s.yield p) .quiet :=
  writeGoto hbar rfl rfl (by simp) rfl rfl (by simp)
    (.keep (keeps_update rfl rfl rfl rfl (.inr ⟨hrun ▸ rfl, rfl⟩)) (killed_update rfl rfl))

/-- `sleep`, called from `wait` only when there is no dead child. -/
theorem sleep {r : Resume} (hr : r = .wait → chan = .proc p ∧ s.zombieChild p = none) :
    Effects s (s.sleep p chan r) .quiet := by
  have hkeeps : Keeps s (s.sleep p chan r) :=
    keeps_update rfl rfl rfl rfl (.inr ⟨by rw [hrun]; rfl, rfl⟩)
  refine ⟨rfl, barred_update hbar (by simp), fun q hwait hsleep => ?_,
    .keep hkeeps (killed_update rfl rfl)⟩
  by_cases hqp : q = p
  · subst hqp
    obtain rfl : r = .wait := by
      simp only [State.sleep, State.goto, update_self] at hwait
      cases r <;> first | rfl | cases hwait
    obtain ⟨rfl, hnone⟩ := hr rfl
    refine .inr ⟨by simp [State.sleep, setProc, State.goto], fun r' hparent hzombie => ?_⟩
    rw [hkeeps.parent] at hparent
    have hr' := zombieChild_none hnone r' hparent
    rcases hkeeps.state r' with hstate | ⟨-, halive⟩
    · exact hr' (hstate.symm.trans hzombie)
    · rw [hzombie] at halive
      cases halive
  · refine .inl ?_
    simp only [State.sleep, setProc, State.goto, update_of_ne hqp] at hwait hsleep ⊢
    exact ⟨hwait, hsleep, trivial⟩

theorem exit (hidle : s.fork p = .idle) (hp : p ≠ s.initproc) : Effects s (s.exit p) (.exit p) := by
  obtain ⟨g, hg, hpasses, hexit⟩ := exit_eq hp
  refine ⟨by rw [hexit], ?_, .of_pc ?_ fun q _ hq => ?_, .exit p (exits hrun hidle hp)⟩
  · rw [hexit]
    exact barred_update hbar (by simp)
  · rw [hexit]
    exact inWait_leave rfl
  · rw [hexit] at hq ⊢
    obtain ⟨hsleep, hchan⟩ := sleeping_of_update hq (by simp)
    obtain ⟨hsleep, hchan'⟩ := sleeping_of_wakeup1 (hg.sleeping hsleep)
    exact ⟨hsleep, hchan.trans ((hpasses.same q).2.2.trans hchan')⟩

theorem wait : Effects s (s.wait p) (s.performEffect p .wait) := by
  cases hq : s.zombieChild p with
  | some q =>
    obtain ⟨hparent, hzombie⟩ := zombieChild_some hq
    simp only [State.wait, performEffect, hq]
    exact writeGoto hbar rfl rfl (by simp) rfl rfl (by simp)
      (.reap p q _ rfl rfl hrun hparent hzombie ⟨rfl, rfl⟩)
  | none =>
    simp only [State.wait, performEffect, hq]
    split_ifs
    · exact goto hbar (p := p) (x := .releasing) (by simp) (by simp) rfl rfl rfl rfl
    · exact sleep hbar hrun fun _ => ⟨rfl, hq⟩

theorem allocproc : Effects s (s.allocproc p) (s.performEffect p .allocproc) := by
  cases hnp : (List.finRange nProc).find? fun q => (s.proc q).state = .unused with
  | some np =>
    have hunused : (s.proc np).state = .unused := by
      simpa using List.find?_some hnp
    simp only [State.allocproc, performEffect, hnp]
    exact writeGoto hbar rfl rfl (by simp) rfl rfl (by simp)
      (.alloc p np _ rfl rfl hrun hunused ⟨rfl, rfl, rfl⟩)
  | none =>
    simp only [State.allocproc, performEffect, hnp]
    exact goto hbar (p := p) (x := .releasing) (by simp) (by simp) rfl rfl rfl rfl

omit hrun

theorem kill (pid : BitVec 32) : Effects s (s.kill p pid) (.kill pid) := by
  have hkill : s.kill p pid = match s.victim pid with
    | some q => (s.setProc q fun x =>
      { x with killed := true,
               state := if x.state = .sleeping then .runnable else x.state }).goto p .releasing
    | none => s.goto p .releasing := rfl
  cases hq : s.victim pid with
  | some q =>
    simp only [hkill, hq]
    refine writeGoto hbar rfl rfl (by simp) rfl rfl ?_
      (.kill pid (keeps_update rfl rfl rfl rfl ?_) fun r => ?_)
    · dsimp only
      split_ifs with hsleep
      · simp
      · exact hsleep
    · dsimp only
      split_ifs with hsleep
      · rw [hsleep]
        exact .inr ⟨rfl, rfl⟩
      · exact .inl rfl
    · by_cases hrq : r = q
      · subst hrq
        simp [hq, setProc, State.goto]
      · simp [hq, setProc, State.goto, hrq, Ne.symm hrq]
  | none =>
    simp only [hkill, hq]
    refine still rfl rfl (inWait_leave rfl) (barred_update hbar (by simp))
      (.kill pid ⟨fun _ => rfl, fun _ => rfl, fun _ => .inl rfl, rfl⟩ fun q => ?_)
    simp [hq, State.goto]

theorem start (hcopied : s.fork p = .copied np) : Effects s (s.start p np) .quiet :=
  writeGoto hbar rfl rfl (by simp) rfl rfl (by simp) (.start p np hcopied rfl rfl)

theorem wakeup (chan : Chan) : Effects s ((s.wakeup1 chan).goto p .releasing) .quiet :=
  ⟨rfl, barred_update hbar (by simp), .of_pc (inWait_leave rfl) fun _ _ => sleeping_of_wakeup1,
    .keep (keeps_wakeup1 rfl rfl) (killed_wakeup1 rfl)⟩

theorem update (h : Inv s) (hs : s.update c = some t) :
    Effects s t (s.effect (.act c .update)) := by
  rw [State.update] at hs
  split at hs
  case h_2 => cases hs
  case h_1 p hstack =>
    split at hs
    case h_2 => cases hs
    case h_1 path hpc =>
      have hcurrent := h.current_of_stack hstack
      rw [hcurrent] at hs
      cases hs
      have heffect : s.effect (.act c .update) = s.performEffect p path := by
        simp only [effect, hstack, hcurrent, hpc]
      rw [heffect]
      obtain ⟨-, hrun⟩ := h.holding hstack (by simp [hpc]) (by simp [hpc])
      have hentered := h.entered p
      rw [hpc] at hentered
      cases path with
      | yield => exact yield hbar hrun
      | sleep chan => exact sleep hbar hrun (by simp)
      | wakeup chan => exact wakeup hbar chan
      | exit =>
        refine exit hbar hrun (by simpa [Entered, mayEnter] using hentered) ?_
        rintro rfl
        exact hbar hpc
      | wait => exact wait hbar hrun
      | kill pid => exact kill hbar pid
      | allocproc => exact allocproc hbar hrun
      | start np => exact start hbar (by simpa [Entered, mayEnter] using hentered)

theorem allocStack (h : Inv s) {kstack : Option ℕ} (hs : s.allocStack c kstack = some t) :
    Effects s t (s.effect (.act c (.allocStack kstack))) := by
  rw [State.allocStack] at hs
  split at hs
  case h_2 => cases hs
  case h_1 p hstack =>
    split at hs
    case h_2 => cases hs
    case h_1 np hpc hfork =>
      have hnp : (s.fork p).child = some np := by
        rw [hfork]
        rfl
      have hembryo := h.embryo_of_child hnp
      cases kstack with
      | some k =>
        cases hs
        exact writeGoto hbar rfl rfl (by simp) rfl rfl (by simp [hembryo])
          (.build p np _ (.stacked np) rfl rfl hnp ⟨hembryo, rfl, rfl⟩ rfl (by simp))
      | none =>
        cases hs
        have heffect : s.effect (.act c (.allocStack none)) = .fail p np := by
          simp only [effect, failEffect, hstack, hnp]
        rw [heffect]
        exact write hbar rfl rfl rfl (by simp) (.fail p np _ rfl rfl hnp ⟨rfl, rfl⟩)

theorem copyuvm (h : Inv s) {pgdir : Option ℕ} (hs : s.copyuvm c pgdir = some t) :
    Effects s t (s.effect (.act c (.copyuvm pgdir))) := by
  rw [State.copyuvm] at hs
  split at hs
  case h_2 => cases hs
  case h_1 p hstack =>
    split at hs
    case h_2 => cases hs
    case h_1 np hpc hfork =>
      have hnp : (s.fork p).child = some np := by
        rw [hfork]
        rfl
      have hembryo := h.embryo_of_child hnp
      cases pgdir with
      | some d =>
        cases hs
        exact write hbar rfl rfl rfl (by simp [hembryo]) (.build p np _ (.copied np) rfl rfl hnp
          ⟨hembryo, rfl, rfl⟩ rfl fun _ => h.current_of_stack hstack)
      | none =>
        cases hs
        have heffect : s.effect (.act c (.copyuvm none)) = .fail p np := by
          simp only [effect, failEffect, hstack, hnp]
        rw [heffect]
        exact write hbar rfl rfl rfl (by simp) (.fail p np _ rfl rfl hnp ⟨rfl, rfl⟩)

theorem trap (h : Inv s) (hs : s.trap c = some t) : Effects s t (s.effect (.trap c)) := by
  rw [State.trap] at hs
  split at hs
  case h_2 => cases hs
  case h_1 p p' hstack hcurrent =>
    obtain ⟨⟨-, hpc, -⟩, rfl⟩ := ite_some_none_eq_some.1 hs
    obtain rfl : p = p' := Option.some.inj ((h.current_of_stack hstack).symm.trans hcurrent)
    have hrun : (s.proc p).state = .running := by
      have hcpu := h.cpu c
      simp only [CpuOk, hstack, hpc] at hcpu
      exact hcpu.2.2
    have heffect : s.effect (.trap c) = .trap p := by
      simp only [effect, hcurrent]
    rw [heffect]
    refine write hbar rfl rfl rfl (by simp [hrun])
      (.trap p hrun (keeps_update rfl rfl rfl rfl (.inl rfl)) fun q => ?_)
    by_cases hqp : q = p
    · subst hqp
      simp [setProc]
    · simp [setProc, hqp]

end Process

theorem next [DecidableEq C] (h : Inv s) {e : Event C} (hs : PTable.next s e = some t) :
    Effects s t (s.effect e) := by
  cases e with
  | trap c => exact trap hbar h hs
  | act c a =>
    obtain ⟨-, hs⟩ := ite_none_left_eq_some.1 hs
    cases a with
    | schedAcquire => exact schedAcquire hbar hs
    | schedWakeup chan => exact schedWakeup hbar hs
    | schedRelease => exact schedRelease hbar hs
    | runProc p => exact runProc hbar hs
    | clearProc => exact clearProc hbar hs
    | acquire path => exact acquire hbar h hs
    | update => exact update hbar h hs
    | swtch => exact swtch hbar hs
    | resume => exact resume hbar h hs
    | release => exact release hbar hs
    | allocStack kstack => exact allocStack hbar h hs
    | copyuvm pgdir => exact copyuvm hbar h hs

end Effects

end Xv6.PTable
