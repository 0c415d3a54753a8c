import Xv6.PTable.Model

/-!
# The invariant of the process table

Every CPU is at a point that agrees with the state of its current process, which
`CpuOk` says, every process that is off the CPUs has what it needs to be run again, and a
child under construction belongs to one process. Waking processes up keeps all of it.
-/

namespace Xv6.PTable

variable {C : Type*} {s : State C} {c : C} {p q : Slot} {pc : Slot → ProcPc} {holds : Prop}

def ProcState.parked : ProcState → Bool
  | .sleeping | .runnable | .zombie => true
  | _ => false

def ProcState.live (x : ProcState) : Bool := x.parked || x = .running

@[simp] theorem ProcState.parked_unused : ProcState.unused.parked = false := rfl

@[simp] theorem ProcState.parked_embryo : ProcState.embryo.parked = false := rfl

@[simp] theorem ProcState.live_unused : ProcState.unused.live = false := rfl

@[simp] theorem ProcState.live_embryo : ProcState.embryo.live = false := rfl

/-- The position of a CPU agrees with the lock and with its process. -/
def CpuOk (holds : Prop) (x : Cpu) (pc : Slot → ProcPc) (proc : Slot → Proc) : Prop :=
  match x.stack with
  | some p => x.proc = some p ∧
      match pc p with
      | .user => ¬ holds ∧ (proc p).state = .running
      | .sched _ => holds ∧ (proc p).state.parked
      | _ => holds ∧ (proc p).state = .running
  | none =>
    match x.loc with
    | .loop => x.proc = none ∧ ¬ holds
    | .picking => x.proc = none ∧ holds
    | .returned => holds ∧ ∃ p, x.proc = some p ∧ (proc p).state.parked

/-- The slot that a `fork` under way works on. -/
def ForkPc.child : ForkPc → Option Slot
  | .idle => none
  | .found np | .stacked np | .copied np => some np

def ProcPc.away : ProcPc → Bool
  | .forkret | .switched _ => true
  | _ => false

def ForkOk (f : ForkPc) (pc : Slot → ProcPc) (proc : Slot → Proc) : Prop :=
  match f with
  | .idle => True
  | .found np => (proc np).state = .embryo
  | .stacked np => (proc np).state = .embryo ∧ pc np = .forkret ∧ (proc np).kstack ≠ none
  | .copied np =>
    (proc np).state = .embryo ∧ pc np = .forkret ∧ (proc np).kstack ≠ none ∧ (proc np).pgdir ≠ none

def Entered (pc : ProcPc) (f : ForkPc) : Prop :=
  match pc with
  | .holding path => State.mayEnter f path
  | .sched .wait | .switched .wait => f = .idle
  | _ => True

/-- A process that has exited is dead, or its slot is free or taken anew. -/
def Exited (pc : ProcPc) (state : ProcState) : Prop :=
  match pc with
  | .sched .exit | .switched .exit => state = .zombie ∨ state = .unused ∨ state = .embryo
  | _ => True

theorem entered_switched (r : Resume) (f : ForkPc) :
    Entered (.switched r) f ↔ Entered (.sched r) f := by
  cases r <;> rfl

theorem exited_switched (r : Resume) (x : ProcState) :
    Exited (.switched r) x ↔ Exited (.sched r) x := by
  cases r <;> rfl

structure Inv (s : State C) : Prop where
  cpu : ∀ c, CpuOk (s.lock = some c) (s.cpu c) s.pc s.proc
  inj : ∀ c c' p, (s.cpu c).proc = some p → (s.cpu c').proc = some p → c = c'
  running : ∀ p, (s.proc p).state = .running → ∃ c, (s.cpu c).proc = some p
  built : ∀ p, (s.proc p).state.live → (s.proc p).kstack ≠ none ∧ (s.proc p).pgdir ≠ none
  away : ∀ p, (s.proc p).state.parked → (∀ c, (s.cpu c).stack ≠ some p) → (s.pc p).away
  forks : ∀ p, ForkOk (s.fork p) s.pc s.proc
  builders : ∀ p q np, (s.fork p).child = some np → (s.fork q).child = some np → p = q
  entered : ∀ p, Entered (s.pc p) (s.fork p)
  exited : ∀ p, Exited (s.pc p) (s.proc p).state
  sound : s.halted = none ∨ s.halted = some .initExiting

/-- A CPU does not notice changes to processes that it does not run. -/
theorem CpuOk.congr {x : Cpu} {pc pc' : Slot → ProcPc}
    {proc proc' : Slot → Proc} (h : CpuOk holds x pc proc)
    (hsame : ∀ p, x.proc = some p → pc' p = pc p ∧ (proc' p).state = (proc p).state) :
    CpuOk holds x pc' proc' := by
  unfold CpuOk at h ⊢
  cases hstack : x.stack with
  | some p =>
    simp only [hstack] at h ⊢
    obtain ⟨hpc, hstate⟩ := hsame p h.1
    rw [hpc, hstate]
    exact h
  | none =>
    simp only [hstack] at h ⊢
    cases hloc : x.loc with
    | loop => simpa [hloc] using h
    | picking => simpa [hloc] using h
    | returned =>
      simp only [hloc] at h ⊢
      obtain ⟨hholds, p, hp, hparked⟩ := h
      refine ⟨hholds, p, hp, ?_⟩
      rw [(hsame p hp).2]
      exact hparked

/-- A process that is current on a CPU is running, or the CPU holds the lock. -/
theorem CpuOk.current {x : Cpu} {proc : Slot → Proc} (h : CpuOk holds x pc proc)
    (hp : x.proc = some p) : (proc p).state = .running ∨ holds ∧ (proc p).state.parked := by
  unfold CpuOk at h
  cases hstack : x.stack with
  | some q =>
    simp only [hstack] at h
    obtain ⟨hq, h⟩ := h
    cases hp.symm.trans hq
    split at h
    · exact .inl h.2
    · exact .inr h
    · exact .inl h.2
  | none =>
    simp only [hstack] at h
    split at h
    · simp [h.1] at hp
    · simp [h.1] at hp
    · obtain ⟨hholds, q, hq, hparked⟩ := h
      cases hp.symm.trans hq
      exact .inr ⟨hholds, hparked⟩

/-- Processes that slept may have become runnable, and fields that do not matter
here may have changed. -/
def Wakes (f g : Slot → Proc) : Prop :=
  ∀ q, (g q).kstack = (f q).kstack ∧ (g q).pgdir = (f q).pgdir ∧
    ((g q).state = (f q).state ∨ (f q).state = .sleeping ∧ (g q).state = .runnable)

theorem Wakes.refl (f : Slot → Proc) : Wakes f f := fun _ => ⟨rfl, rfl, .inl rfl⟩

theorem Wakes.trans {f g k : Slot → Proc} (h : Wakes f g) (h' : Wakes g k) : Wakes f k := by
  intro q
  obtain ⟨hk, hd, hs⟩ := h q
  obtain ⟨hk', hd', hs'⟩ := h' q
  refine ⟨hk'.trans hk, hd'.trans hd, ?_⟩
  rcases hs' with hs' | ⟨hsleep, hrun⟩
  · rw [hs']
    exact hs
  · rcases hs with hs | ⟨-, hrun'⟩
    · exact .inr ⟨hs.symm.trans hsleep, hrun⟩
    · simp [hrun'] at hsleep

namespace Wakes

variable {f g : Slot → Proc}

variable (h : Wakes f g)
include h

theorem running_iff (q : Slot) : (g q).state = .running ↔ (f q).state = .running := by
  obtain ⟨-, -, hs | ⟨hsleep, hrun⟩⟩ := h q
  · rw [hs]
  · simp [hsleep, hrun]

theorem embryo_iff (q : Slot) : (g q).state = .embryo ↔ (f q).state = .embryo := by
  obtain ⟨-, -, hs | ⟨hsleep, hrun⟩⟩ := h q
  · rw [hs]
  · simp [hsleep, hrun]

theorem sleeping (hq : (g q).state = .sleeping) : (f q).state = .sleeping := by
  obtain ⟨-, -, hs | ⟨hsleep, -⟩⟩ := h q
  · exact hs.symm.trans hq
  · exact hsleep

theorem parked (q : Slot) : (g q).state.parked = (f q).state.parked := by
  obtain ⟨-, -, hs | ⟨hsleep, hrun⟩⟩ := h q
  · rw [hs]
  · rw [hsleep, hrun]
    rfl

theorem live (q : Slot) : (g q).state.live = (f q).state.live := by
  simp only [ProcState.live, h.parked, h.running_iff]

theorem forkOk {x : ForkPc} (hx : ForkOk x pc f) : ForkOk x pc g := by
  cases x with
  | idle => trivial
  | found np => exact (h.embryo_iff np).2 hx
  | stacked np =>
    refine ⟨(h.embryo_iff np).2 hx.1, hx.2.1, ?_⟩
    rw [(h np).1]
    exact hx.2.2
  | copied np =>
    refine ⟨(h.embryo_iff np).2 hx.1, hx.2.1, ?_⟩
    rw [(h np).1, (h np).2.1]
    exact hx.2.2

theorem cpuOk {x : Cpu} (hx : CpuOk holds x pc f) : CpuOk holds x pc g := by
  simpa only [CpuOk, h.running_iff, h.parked] using hx

theorem exited {pc : ProcPc} (hpc : Exited pc (f p).state) : Exited pc (g p).state := by
  obtain ⟨-, -, hs | ⟨hsleep, -⟩⟩ := h p
  · rw [hs]
    exact hpc
  · unfold Exited at hpc ⊢
    split <;> simp_all

end Wakes

theorem wakes_wakeup1 (s : State C) (chan : Chan) : Wakes s.proc (s.wakeup1 chan).proc := by
  intro q
  simp only [State.wakeup1]
  split_ifs with hq
  · exact ⟨rfl, rfl, .inr ⟨hq.1, rfl⟩⟩
  · exact ⟨rfl, rfl, .inl rfl⟩

theorem wakes_setProc (s : State C) (p : Slot) {f : Proc → Proc}
    (hf : (f (s.proc p)).kstack = (s.proc p).kstack ∧ (f (s.proc p)).pgdir = (s.proc p).pgdir ∧
      ((f (s.proc p)).state = (s.proc p).state ∨
        (s.proc p).state = .sleeping ∧ (f (s.proc p)).state = .runnable)) :
    Wakes s.proc (s.setProc p f).proc := by
  intro q
  by_cases hq : q = p
  · subst hq
    simpa [State.setProc] using hf
  · simp [State.setProc, hq]

theorem wakes_passToInit (p q : Slot) (s : State C) :
    Wakes s.proc (State.passToInit p s q).proc := by
  unfold State.passToInit
  split_ifs with hparent
  · have hset := wakes_setProc s q (f := fun x => { x with parent := some s.initproc })
      ⟨rfl, rfl, .inl rfl⟩
    dsimp only
    split_ifs
    · exact hset.trans (wakes_wakeup1 _ _)
    · exact hset
  · exact Wakes.refl _

theorem foldl_passToInit (p : Slot) (s : State C) (qs : List Slot) :
    ∃ g, Wakes s.proc g ∧ qs.foldl (State.passToInit p) s = { s with proc := g } := by
  induction qs generalizing s with
  | nil => exact ⟨s.proc, Wakes.refl _, rfl⟩
  | cons q qs ih =>
    have hone : State.passToInit p s q = { s with proc := (State.passToInit p s q).proc } := by
      unfold State.passToInit
      split_ifs
      · dsimp only
        split_ifs <;> rfl
      · rfl
    obtain ⟨g, hg, heq⟩ := ih (State.passToInit p s q)
    refine ⟨g, (wakes_passToInit p q s).trans hg, ?_⟩
    rw [List.foldl_cons, heq, hone]

theorem zombieChild_some (h : s.zombieChild p = some q) :
    (s.proc q).parent = some p ∧ (s.proc q).state = .zombie := by
  have hfind := List.find?_some h
  simpa only [Bool.decide_and, Bool.and_eq_true, decide_eq_true_eq] using hfind

theorem zombieChild_none (h : s.zombieChild p = none) (q : Slot)
    (hparent : (s.proc q).parent = some p) : (s.proc q).state ≠ .zombie := by
  intro hzombie
  have hfind := List.find?_eq_none.1 h q (List.mem_finRange q)
  exact hfind (by simp [hparent, hzombie])

namespace Inv

theorem running_of_current (h : Inv s) (hp : (s.cpu c).proc = some p)
    (hlock : s.lock ≠ some c) : (s.proc p).state = .running :=
  ((h.cpu c).current hp).resolve_right fun hholds => hlock hholds.1

theorem live_of_current (h : Inv s) (hp : (s.cpu c).proc = some p) :
    (s.proc p).state.live = true := by
  rcases (h.cpu c).current hp with hrun | ⟨-, hparked⟩
  · rw [hrun]
    rfl
  · simp [ProcState.live, hparked]

theorem current_of_stack (h : Inv s) (hstack : (s.cpu c).stack = some p) :
    (s.cpu c).proc = some p := by
  have hcpu := h.cpu c
  simp only [CpuOk, hstack] at hcpu
  exact hcpu.1

theorem holding (h : Inv s) (hstack : (s.cpu c).stack = some p) (huser : s.pc p ≠ .user)
    (hsched : ∀ r, s.pc p ≠ .sched r) : s.lock = some c ∧ (s.proc p).state = .running := by
  have hcpu := h.cpu c
  simp only [CpuOk, hstack] at hcpu
  exact hcpu.2

theorem halt_initExiting (h : Inv s) : Inv (s.halt .initExiting) :=
  { h with sound := .inr rfl }

end Inv

end Xv6.PTable
