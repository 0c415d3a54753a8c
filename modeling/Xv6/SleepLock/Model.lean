import Xv6.Library.Mutex
import Xv6.PTable.Model

/-!
# Sleep locks

One sleep lock of `sleeplock.c` and any number of processes that call `acquiresleep`,
`releasesleep` and `holdingsleep` on it, with `sleep`, `wakeup` and `kill` of `proc.c`.
Only the process that holds the sleep lock calls `releasesleep`. A process holds
`lk->lk` from one event to another, and `ptable.lock` in the middle of `sleep`, where
it releases `lk->lk` before it is asleep. `wakeup` and `kill` are events that need
`ptable.lock` to be free.

The state of a process is `RUNNING` while it is outside of `sleep`: whether it is on a
processor does not matter here.
-/

namespace Xv6.SleepLock

open Option

open PTable (ProcState)

/-- The fields of `struct sleeplock` that the spin lock `lk` protects. -/
structure Sleeplock where
  locked : Bool
  pid : ℤ
  deriving DecidableEq

inductive Chan where
  | lk
  deriving DecidableEq

structure Proc where
  state : ProcState
  chan : Option Chan
  killed : Bool

inductive Call where
  | acquiresleep
  | releasesleep
  | holdingsleep
  deriving DecidableEq

/-- Where a process is. The last answer of `holdingsleep` is kept outside of the calls. In
`acquiresleep` and in `holdingsleep` the flag `held` tells whether the caller had the sleep
lock when it called. -/
inductive Pc where
  /-- Outside of the calls, without the sleep lock. -/
  | out (r : Option Bool)
  /-- Outside of the calls, after an `acquiresleep` that has returned. -/
  | holding (r : Option Bool)
  /-- In `acquiresleep`, about to take `lk->lk`. -/
  | acquire (held : Bool)
  /-- At the head of the loop of `acquiresleep`. -/
  | testing (held : Bool)
  /-- In `sleep`, about to take `ptable.lock`. -/
  | sleepLock (held : Bool)
  /-- In `sleep`, about to release `lk->lk`. -/
  | sleepRelease (held : Bool)
  /-- In `sleep`, about to set `chan` and `state`. -/
  | sleepSet (held : Bool)
  | asleep (held : Bool)
  /-- In `sleep`, about to take `lk->lk` again. -/
  | sleepRelock (held : Bool)
  /-- In `acquiresleep`, past its loop, about to release `lk->lk`. -/
  | acquired
  /-- In `releasesleep`, about to take `lk->lk`. -/
  | release
  | clearing
  /-- In `releasesleep`, about to call `wakeup`. -/
  | waking
  /-- In `releasesleep`, about to release `lk->lk`. -/
  | released
  /-- In `holdingsleep`, about to take `lk->lk`. -/
  | check (held : Bool)
  | checking (held : Bool)
  /-- In `holdingsleep`, about to release `lk->lk`. -/
  | checked (held r : Bool)
  deriving DecidableEq

structure State (P : Type*) where
  lk : Sleeplock
  /-- The process that holds `lk->lk`. -/
  lock : Option P
  /-- The process in `sleep` that holds `ptable.lock`. -/
  ptable : Option P
  proc : P → Proc
  pc : P → Pc

inductive Event (P : Type*) where
  | call (p : P) (c : Call)
  | run (p : P)
  | kill (p : P)

def initsleeplock (P : Type*) : State P where
  lk := { locked := false, pid := 0 }
  lock := none
  ptable := none
  proc _ := { state := .running, chan := none, killed := false }
  pc _ := .out none

/-- Where a process calls a routine, and where it starts. Only a process with the sleep
lock calls `releasesleep`. -/
def Pc.enter : Pc → Call → Option Pc
  | .out _, .acquiresleep => some (.acquire false)
  | .holding _, .acquiresleep => some (.acquire true)
  | .holding _, .releasesleep => some .release
  | .out _, .holdingsleep => some (.check false)
  | .holding _, .holdingsleep => some (.check true)
  | _, _ => none

namespace State

variable {P : Type*}

def wakeup1 (s : State P) : State P :=
  { s with proc := fun q =>
      if (s.proc q).state = .sleeping ∧ (s.proc q).chan = some .lk then
        { s.proc q with state := .runnable }
      else
        s.proc q }

variable [DecidableEq P]

def goto (s : State P) (p : P) (c : Pc) : State P :=
  { s with pc := Function.update s.pc p c }

def setProc (s : State P) (p : P) (pr : Proc) : State P :=
  { s with proc := Function.update s.proc p pr }

def kill (s : State P) (p : P) : State P :=
  s.setProc p { s.proc p with
    killed := true
    state := if (s.proc p).state = .sleeping then .runnable else (s.proc p).state }

variable (pid : P → ℤ)

def run (s : State P) (p : P) : Option (State P) :=
  match s.pc p with
  | .out _ => none
  | .holding _ => none
  | .acquire held =>
    if s.lock = none then some ({ s with lock := some p }.goto p (.testing held)) else none
  | .testing held =>
    if s.lk.locked then
      some (s.goto p (.sleepLock held))
    else
      some ({ s with lk := { locked := true, pid := pid p } }.goto p .acquired)
  | .sleepLock held =>
    if s.ptable = none then some ({ s with ptable := some p }.goto p (.sleepRelease held))
    else none
  | .sleepRelease held => some ({ s with lock := none }.goto p (.sleepSet held))
  | .sleepSet held =>
    some (({ s with ptable := none }.setProc p
      { s.proc p with chan := some .lk, state := .sleeping }).goto p (.asleep held))
  | .asleep held =>
    if (s.proc p).state = .runnable ∧ s.ptable = none then
      some ((s.setProc p { s.proc p with chan := none, state := .running }).goto p
        (.sleepRelock held))
    else
      none
  | .sleepRelock held =>
    if s.lock = none then some ({ s with lock := some p }.goto p (.testing held)) else none
  | .acquired => some ({ s with lock := none }.goto p (.holding none))
  | .release =>
    if s.lock = none then some ({ s with lock := some p }.goto p .clearing) else none
  | .clearing => some ({ s with lk := { locked := false, pid := 0 } }.goto p .waking)
  | .waking => if s.ptable = none then some (s.wakeup1.goto p .released) else none
  | .released => some ({ s with lock := none }.goto p (.out none))
  | .check held =>
    if s.lock = none then some ({ s with lock := some p }.goto p (.checking held)) else none
  | .checking held =>
    some (s.goto p (.checked held (s.lk.locked && decide (s.lk.pid = pid p))))
  | .checked held r =>
    some ({ s with lock := none }.goto p (if held then .holding (some r) else .out (some r)))

end State

variable {P : Type*} [DecidableEq P]

def step (pid : P → ℤ) (s : State P) : Event P → Option (State P)
  | .call p c => ((s.pc p).enter c).map (s.goto p)
  | .run p => s.run pid p
  | .kill p => if s.ptable = none then some (s.kill p) else none

end Xv6.SleepLock
