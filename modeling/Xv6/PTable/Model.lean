import Mathlib.Data.List.FinRange
import Xv6.Library.Machine
import Xv6.Param

/-!
# The process table and the CPUs

The critical sections of `ptable.lock` in `proc.c`, run by any number of CPUs.
A CPU is on its scheduler's stack or on the kernel stack of a process, and
`ptable.lock` stays with the CPU when it switches between the two: a process
acquires the lock, changes its state and calls `sched`, the scheduler clears
`c->proc` and releases it; the scheduler acquires the lock and runs a process,
which releases it after `sched` or in `forkret`. Acquiring, updating the table,
switching and releasing are separate events.

Each of the three level schedulers returns a process it has found `RUNNABLE`,
so `run_proc` may be given any such process. `fork` works on the new process
without the lock, and a timer interrupt may make it yield in between; `fork p`
is how far `p` has come. The archive of system calls in `pptable` is left out.
-/

namespace Xv6.PTable

open Function

abbrev Slot := Fin nProc

inductive ProcState where
  | unused
  | embryo
  | sleeping
  | runnable
  | running
  | zombie
  deriving DecidableEq

/-- The address a process sleeps on. -/
inductive Chan where
  | null
  | proc (p : Slot)
  | addr (a : ℕ)
  deriving DecidableEq

structure Proc where
  state : ProcState
  pid : BitVec 32
  parent : Option Slot
  chan : Chan
  killed : Bool
  kstack : Option ℕ
  pgdir : Option ℕ

/-- Where `sched` returns to. -/
inductive Resume where
  | yield
  | sleep
  | wait
  | exit
  deriving DecidableEq

/-- The critical sections of `ptable.lock`. -/
inductive Path where
  | yield
  | sleep (chan : Chan)
  | wakeup (chan : Chan)
  | exit
  | wait
  | kill (pid : BitVec 32)
  | allocproc
  | start (np : Slot)
  deriving DecidableEq

/-- Where a process is with respect to `ptable.lock`. -/
inductive ProcPc where
  /-- It runs without the lock. -/
  | user
  | holding (path : Path)
  /-- It has changed its state and is in `sched`, before the switch. -/
  | sched (r : Resume)
  | switched (r : Resume)
  /-- It has never run. -/
  | forkret
  | releasing
  deriving DecidableEq

/-- How far `fork` has come: it has found a slot, given it a kernel stack, and
given it a page directory. -/
inductive ForkPc where
  | idle
  | found (np : Slot)
  | stacked (np : Slot)
  | copied (np : Slot)
  deriving DecidableEq

/-- Where a CPU is in `scheduler`. -/
inductive SchedPc where
  | loop
  | picking
  /-- A process has switched back to `run_proc`. -/
  | returned
  deriving DecidableEq

/-- `proc` is `c->proc`, and `stack` is the process whose kernel stack the CPU
is on, if it is not on its scheduler's. -/
structure Cpu where
  proc : Option Slot
  stack : Option Slot
  loc : SchedPc

/-- Panics of `proc.c` and `vm.c`. -/
inductive Panic where
  | switchuvmNoKstack
  | switchuvmNoPgdir
  | schedLock
  | schedRunning
  | zombieExit
  | initExiting
  | noProc
  deriving DecidableEq

structure State (C : Type*) where
  proc : Slot → Proc
  pc : Slot → ProcPc
  fork : Slot → ForkPc
  cpu : C → Cpu
  lock : Option C
  /-- The `int` of the source, which is taken not to overflow. -/
  nextpid : BitVec 32
  initproc : Slot
  halted : Option Panic

inductive Action where
  | schedAcquire
  | schedWakeup (chan : Chan)
  | schedRelease
  | runProc (p : Slot)
  | clearProc
  | acquire (path : Path)
  | update
  | swtch
  | resume
  | release
  | allocStack (kstack : Option ℕ)
  | copyuvm (pgdir : Option ℕ)
  deriving DecidableEq

namespace State

variable {C : Type*}

def setProc (s : State C) (p : Slot) (f : Proc → Proc) : State C :=
  { s with proc := update s.proc p (f (s.proc p)) }

def goto (s : State C) (p : Slot) (pc : ProcPc) : State C :=
  { s with pc := update s.pc p pc }

def setFork (s : State C) (p : Slot) (f : ForkPc) : State C :=
  { s with fork := update s.fork p f }

def halt (s : State C) (e : Panic) : State C := { s with halted := some e }

def wakeup1 (s : State C) (chan : Chan) : State C :=
  { s with proc := fun q =>
      if (s.proc q).state = .sleeping ∧ (s.proc q).chan = chan then
        { s.proc q with state := .runnable }
      else
        s.proc q }

def yield (s : State C) (p : Slot) : State C :=
  (s.setProc p fun q => { q with state := .runnable }).goto p (.sched .yield)

def sleep (s : State C) (p : Slot) (chan : Chan) (r : Resume) : State C :=
  (s.setProc p fun q => { q with chan := chan, state := .sleeping }).goto p (.sched r)

def parentChan : Option Slot → Chan
  | none => .null
  | some q => .proc q

/-- One round of the loop of `exit` that passes abandoned children to init. -/
def passToInit (p : Slot) (s : State C) (q : Slot) : State C :=
  if (s.proc q).parent = some p then
    let t := s.setProc q fun x => { x with parent := some s.initproc }
    if (t.proc q).state = .zombie then t.wakeup1 (.proc s.initproc) else t
  else
    s

def exit (s : State C) (p : Slot) : State C :=
  let s := s.wakeup1 (parentChan (s.proc p).parent)
  let s := (List.finRange nProc).foldl (passToInit p) s
  (s.setProc p fun q => { q with state := .zombie }).goto p (.sched .exit)

/-- A child of `p` that `wait` can free. -/
def zombieChild (s : State C) (p : Slot) : Option Slot :=
  (List.finRange nProc).find? fun q =>
    (s.proc q).parent = some p ∧ (s.proc q).state = .zombie

def wait (s : State C) (p : Slot) : State C :=
  match s.zombieChild p with
  | some q =>
    (s.setProc q fun x =>
      { x with kstack := none, pid := 0, parent := none, killed := false,
               state := .unused }).goto p .releasing
  | none =>
    if (∀ q, (s.proc q).parent ≠ some p) ∨ (s.proc p).killed then
      s.goto p .releasing
    else
      s.sleep p (.proc p) .wait

def kill (s : State C) (p : Slot) (pid : BitVec 32) : State C :=
  match (List.finRange nProc).find? fun q => (s.proc q).pid = pid with
  | some q =>
    (s.setProc q fun x =>
      { x with killed := true,
               state := if x.state = .sleeping then .runnable else x.state }).goto p
        .releasing
  | none => s.goto p .releasing

/-- `allocproc`. What it stores after the end of the table when no slot is free is left out. -/
def allocproc (s : State C) (p : Slot) : State C :=
  match (List.finRange nProc).find? fun q => (s.proc q).state = .unused with
  | some np =>
    (({ s with nextpid := s.nextpid + 1 }.setProc np fun x =>
      { x with state := .embryo, pid := s.nextpid }).setFork p (.found np)).goto p .releasing
  | none => s.goto p .releasing

def start (s : State C) (p np : Slot) : State C :=
  ((s.setProc np fun x => { x with state := .runnable }).setFork p .idle).goto p .releasing

def perform (s : State C) (p : Slot) : Path → State C
  | .yield => s.yield p
  | .sleep chan => s.sleep p chan .sleep
  | .wakeup chan => (s.wakeup1 chan).goto p .releasing
  | .exit => s.exit p
  | .wait => s.wait p
  | .kill pid => s.kill p pid
  | .allocproc => s.allocproc p
  | .start np => s.start p np

/-- May a process that is at `f` in `fork` enter the critical section? Only an
interrupt, which may yield or wake others up, comes in the middle of `fork`. -/
def mayEnter (f : ForkPc) : Path → Bool
  | .yield | .wakeup _ => true
  | .start np => f = .copied np
  | _ => f = .idle

variable [DecidableEq C]

def setCpu (s : State C) (c : C) (f : Cpu → Cpu) : State C :=
  { s with cpu := update s.cpu c (f (s.cpu c)) }

def schedAcquire (s : State C) (c : C) : Option (State C) :=
  if (s.cpu c).stack = none ∧ (s.cpu c).loc = .loop ∧ s.lock = none then
    some { s.setCpu c fun x => { x with loc := .picking } with lock := some c }
  else
    none

def schedWakeup (s : State C) (c : C) (chan : Chan) : Option (State C) :=
  if (s.cpu c).stack = none ∧ (s.cpu c).loc = .loop ∧ s.lock = none then
    some (s.wakeup1 chan)
  else
    none

/-- `scheduler` has found nothing to run. -/
def schedRelease (s : State C) (c : C) : Option (State C) :=
  if (s.cpu c).stack = none ∧ (s.cpu c).loc = .picking then
    some { s.setCpu c fun x => { x with loc := .loop } with lock := none }
  else
    none

def runProc (s : State C) (c : C) (p : Slot) : Option (State C) :=
  if (s.cpu c).stack = none ∧ (s.cpu c).loc = .picking ∧ (s.proc p).state = .runnable then
    if (s.proc p).kstack = none then
      some (s.halt .switchuvmNoKstack)
    else if (s.proc p).pgdir = none then
      some (s.halt .switchuvmNoPgdir)
    else
      some ((s.setProc p fun q => { q with state := .running }).setCpu c fun x =>
        { x with proc := some p, stack := some p })
  else
    none

/-- `run_proc` after the switch, and the release in `scheduler`. -/
def clearProc (s : State C) (c : C) : Option (State C) :=
  if (s.cpu c).stack = none ∧ (s.cpu c).loc = .returned then
    some { s.setCpu c fun x => { x with proc := none, loc := .loop } with lock := none }
  else
    none

def acquire (s : State C) (c : C) (path : Path) : Option (State C) :=
  match (s.cpu c).stack with
  | some p =>
    if s.pc p = .user ∧ mayEnter (s.fork p) path ∧ s.lock = none then
      if path = .exit ∧ (s.cpu c).proc = some s.initproc then
        some (s.halt .initExiting)
      else
        some { s.goto p (.holding path) with lock := some c }
    else
      none
  | none => none

/-- A process runs its critical section, as `myproc()`. -/
def update (s : State C) (c : C) : Option (State C) :=
  match (s.cpu c).stack with
  | some p =>
    match s.pc p with
    | .holding path =>
      match (s.cpu c).proc with
      | some curproc => some (s.perform curproc path)
      | none => some (s.halt .noProc)
    | _ => none
  | none => none

def swtch (s : State C) (c : C) : Option (State C) :=
  match (s.cpu c).stack with
  | some p =>
    match s.pc p with
    | .sched r =>
      if s.lock ≠ some c then
        some (s.halt .schedLock)
      else if (s.proc p).state = .running then
        some (s.halt .schedRunning)
      else
        some ((s.goto p (.switched r)).setCpu c fun x =>
          { x with stack := none, loc := .returned })
    | _ => none
  | none => none

def resume (s : State C) (c : C) : Option (State C) :=
  match (s.cpu c).stack with
  | some p =>
    match s.pc p with
    | .forkret => some (s.goto p .releasing)
    | .switched .yield => some (s.goto p .releasing)
    | .switched .sleep =>
      some ((s.setProc p fun q => { q with chan := .null }).goto p .releasing)
    | .switched .wait =>
      some ((s.setProc p fun q => { q with chan := .null }).goto p (.holding .wait))
    | .switched .exit => some (s.halt .zombieExit)
    | _ => none
  | none => none

def release (s : State C) (c : C) : Option (State C) :=
  match (s.cpu c).stack with
  | some p =>
    if s.pc p = .releasing then some { s.goto p .user with lock := none } else none
  | none => none

def allocStack (s : State C) (c : C) (kstack : Option ℕ) : Option (State C) :=
  match (s.cpu c).stack with
  | some p =>
    match s.pc p, s.fork p with
    | .user, .found np =>
      match kstack with
      | some k =>
        some (((s.setProc np fun x => { x with kstack := some k }).goto np
          .forkret).setFork p (.stacked np))
      | none =>
        some ((s.setProc np fun x =>
          { x with kstack := none, state := .unused }).setFork p .idle)
    | _, _ => none
  | none => none

def copyuvm (s : State C) (c : C) (pgdir : Option ℕ) : Option (State C) :=
  match (s.cpu c).stack with
  | some p =>
    match s.pc p, s.fork p with
    | .user, .stacked np =>
      match pgdir with
      | some d =>
        some ((s.setProc np fun x =>
          { x with pgdir := some d, parent := (s.cpu c).proc }).setFork p (.copied np))
      | none =>
        some ((s.setProc np fun x =>
          { x with pgdir := none, kstack := none, state := .unused }).setFork p .idle)
    | _, _ => none
  | none => none

end State

def step {C : Type*} [DecidableEq C] (s : State C) (e : C × Action) : Option (State C) :=
  if s.halted.isSome then none
  else
    match e.2 with
    | .schedAcquire => s.schedAcquire e.1
    | .schedWakeup chan => s.schedWakeup e.1 chan
    | .schedRelease => s.schedRelease e.1
    | .runProc p => s.runProc e.1 p
    | .clearProc => s.clearProc e.1
    | .acquire path => s.acquire e.1 path
    | .update => s.update e.1
    | .swtch => s.swtch e.1
    | .resume => s.resume e.1
    | .release => s.release e.1
    | .allocStack kstack => s.allocStack e.1 kstack
    | .copyuvm pgdir => s.copyuvm e.1 pgdir

/-- The table after `userinit`, with every CPU in its scheduler. -/
def userinit (C : Type*) (initproc : Slot) (kstack pgdir : ℕ) : State C where
  proc p :=
    if p = initproc then
      { state := .runnable, pid := 1, parent := none, chan := .null, killed := false,
        kstack := some kstack, pgdir := some pgdir }
    else
      { state := .unused, pid := 0, parent := none, chan := .null, killed := false,
        kstack := none, pgdir := none }
  pc _ := .forkret
  fork _ := .idle
  cpu _ := { proc := none, stack := none, loc := .loop }
  lock := none
  nextpid := 2
  initproc := initproc
  halted := none

end Xv6.PTable
