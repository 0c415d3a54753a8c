import Xv6.PTable.Model

/-!
# The three-level scheduler

One pass of the level loop of `scheduler` and the functions it calls. The lottery draws a
number with `random_at_most`, which asks `genrand` for 31-bit values until one falls in a
whole bin; the values it gets are a list here, and the pass stops short when it is used
up. The second level is the first runnable process of the table whatever its queue, since
its test is `p->priority == PL2 || 1`, and ages the processes it meets on the way.

Integers are 32 bits wide and wrap, as the sum of the tickets does. The third level
compares ratios in single precision, and nothing below depends on how they are rounded, so
the arithmetic is a parameter.
-/

namespace Xv6.Scheduler

open PTable (Slot ProcState)

inductive Priority where
  | pl1
  | pl2
  | pl3
  deriving DecidableEq

structure Proc where
  state : ProcState
  priority : Priority
  clicks : BitVec 32
  lastRun : BitVec 32
  arrivalTime : BitVec 32
  tickets : BitVec 32
  deriving DecidableEq

abbrev Table := Slot → Proc

abbrev slots : List Slot := List.finRange nProc

/-- A value of `genrand`, which strips off the uppermost bit. -/
abbrev Draw := BitVec 31

abbrev randMax : BitVec 32 := 0x7fffffff

abbrev numRand : BitVec 32 := randMax + 1

def numBins (max : BitVec 32) : BitVec 32 := max + 1

def binSize (max : BitVec 32) : BitVec 32 := numRand / numBins max

def defect (max : BitVec 32) : BitVec 32 := numRand % numBins max

/-- Why a draw does not return: the divisor is zero, or no value was accepted. -/
inductive Fault where
  | divide
  | noDraw
  deriving DecidableEq

/-- The loop of `random_at_most`, and its result. -/
def randomLoop (max : BitVec 32) : List Draw → Except Fault (BitVec 32 × List Draw)
  | [] => .error .noDraw
  | x :: draws =>
    if numRand - defect max ≤ x.setWidth 32 then
      randomLoop max draws
    else
      .ok (x.setWidth 32 / binSize max, draws)

def randomAtMost (max : BitVec 32) (draws : List Draw) :
    Except Fault (BitVec 32 × List Draw) :=
  if numBins max = 0 then .error .divide else randomLoop max draws

/-- The first loop of `sched_lottery`: the tickets of the runnable processes at `PL1`. -/
def ticketsSum (t : Table) : List Slot → BitVec 32 → BitVec 32
  | [], sum => sum
  | p :: ps, sum =>
    if (t p).priority = .pl1 then
      if (t p).state = .runnable then
        ticketsSum t ps (sum + (t p).tickets)
      else
        ticketsSum t ps sum
    else
      ticketsSum t ps sum

def findWinner (t : Table) (winner : BitVec 32) : List Slot → BitVec 32 → Option Slot
  | [], _ => none
  | p :: ps, sum =>
    if (t p).state ≠ .runnable then
      findWinner t winner ps sum
    else if (t p).priority = .pl1 then
      if (sum + (t p).tickets).slt winner then
        findWinner t winner ps (sum + (t p).tickets)
      else
        some p
    else
      findWinner t winner ps sum

def schedLottery (t : Table) (draws : List Draw) : Except Fault (Option Slot × List Draw) :=
  match randomAtMost (ticketsSum t slots 0) draws with
  | .ok (winner, draws) => .ok (findWinner t winner slots 0, draws)
  | .error e => .error e

def Proc.waiting (ticks : BitVec 32) (p : Proc) : ℤ := (ticks - p.lastRun).toInt

def Proc.applyAging (ticks : BitVec 32) (p : Proc) : Proc :=
  if 2500 < p.waiting ticks then { p with priority := .pl1, lastRun := ticks } else p

def Table.age (t : Table) (ticks : BitVec 32) (p : Slot) : Table :=
  Function.update t p ((t p).applyAging ticks)

/-- The loop of `sched_rr`, which takes every process for one of its queue. -/
def scanRr (ticks : BitVec 32) : List Slot → Table → Option Slot × Table
  | [], t => (none, t)
  | p :: ps, t =>
    if ((t.age ticks p) p).state = .runnable then
      (some p, t.age ticks p)
    else
      scanRr ticks ps (t.age ticks p)

def schedRr (ticks : BitVec 32) (t : Table) : Option Slot × Table := scanRr ticks slots t

section Hrrn

/-- Single-precision arithmetic: the quotient of two integers, the number `-1`, and `>`. -/
structure Floats (F : Type*) where
  quotient : ℤ → ℤ → F
  minusOne : F
  gt : F → F → Bool

variable {F : Type*} (fl : Floats F)

/-- The inner loop of `sched_hrrn`: the process with the highest response ratio. -/
def victor (ticks : BitVec 32) (t : Table) : List Slot → F → Option Slot → Option Slot
  | [], _, best => best
  | p :: ps, max, best =>
    if (t p).state = .runnable ∧ (t p).priority = .pl3 then
      let hrrn := fl.quotient (ticks - (t p).arrivalTime).toInt (t p).clicks.toInt
      if fl.gt hrrn max then
        victor ticks t ps hrrn (some p)
      else
        victor ticks t ps max best
    else
      victor ticks t ps max best

/-- The outer loop of `sched_hrrn`. The inner loop uses the same variable, so the first
runnable process that is met ends both. -/
def scanHrrn (ticks : BitVec 32) : List Slot → Table → Option Slot × Table
  | [], t => (none, t)
  | p :: ps, t =>
    if (t p).priority = .pl3 then
      if ((t.age ticks p) p).state = .runnable then
        (victor fl ticks (t.age ticks p) slots fl.minusOne none, t.age ticks p)
      else
        scanHrrn ticks ps (t.age ticks p)
    else
      scanHrrn ticks ps t

def schedHrrn (ticks : BitVec 32) (t : Table) : Option Slot × Table :=
  scanHrrn fl ticks slots t

end Hrrn

section Levels

/-- What the level loop has come to: the process to run, if one was found, the table, and
the values of `genrand` it has not used. -/
structure Choice where
  found : Option Slot
  table : Table
  draws : List Draw

variable {F : Type*} (fl : Floats F)

def levels (ticks : BitVec 32) (t : Table) (draws : List Draw) : Except Fault Choice :=
  match schedLottery t draws with
  | .error e => .error e
  | .ok (some p, draws) => .ok ⟨some p, t, draws⟩
  | .ok (none, draws) =>
    match schedRr ticks t with
    | (some p, t) => .ok ⟨some p, t, draws⟩
    | (none, t) =>
      let r := schedHrrn fl ticks t
      .ok ⟨r.1, r.2, draws⟩

def Proc.run (ticks : BitVec 32) (p : Proc) : Proc :=
  { p with clicks := p.clicks + 1, lastRun := ticks, state := .running }

end Levels

structure State where
  proc : Table
  ticks : BitVec 32

/-- What changes the table: passes of the scheduler, the processes that run, and the
clock. -/
inductive Event where
  | allocproc
  | forkFails (p : Slot)
  | forkStarts (p : Slot)
  | schedule (draws : List Draw)
  | yield (p : Slot)
  | sleep (p : Slot)
  | wakeup (p : Slot)
  | exit (p : Slot)
  | wait (p : Slot)
  | exec (p : Slot)
  | setTickets (p : Slot) (value : BitVec 32)
  | setQueue (p : Slot) (value : BitVec 32)
  | tick

namespace State

def setProc (s : State) (p : Slot) (f : Proc → Proc) : State :=
  { s with proc := Function.update s.proc p (f (s.proc p)) }

def move (s : State) (p : Slot) (old new : ProcState) : Option State :=
  if (s.proc p).state = old then some (s.setProc p fun x => { x with state := new }) else none

def allocproc (s : State) : Option State :=
  (slots.find? fun p => (s.proc p).state = .unused).map fun p =>
    s.setProc p fun _ => ⟨.embryo, .pl3, 1, s.ticks, s.ticks, 10⟩

def schedule (s : State) {F : Type*} (fl : Floats F) (draws : List Draw) : Option State :=
  match levels fl s.ticks s.proc draws with
  | .error _ => none
  | .ok ⟨some p, t, _⟩ => some ({ s with proc := t }.setProc p (Proc.run s.ticks))
  | .ok ⟨none, t, _⟩ => some { s with proc := t }

/-- The process that a pass of `scheduler` gives to `run_proc`. -/
def dispatched (s : State) {F : Type*} (fl : Floats F) (draws : List Draw) : Option Slot :=
  match levels fl s.ticks s.proc draws with
  | .error _ => none
  | .ok c => c.found

def setTickets (s : State) (p : Slot) (value : BitVec 32) : Option State :=
  if (s.proc p).state = .running then
    if value.toInt ≤ 0 then some s else some (s.setProc p fun x => { x with tickets := value })
  else
    none

def queue (value : BitVec 32) : Option Priority :=
  if value = 0 then some .pl1 else if value = 1 then some .pl2
  else if value = 2 then some .pl3 else none

def setQueue (s : State) (p : Slot) (value : BitVec 32) : Option State :=
  if (s.proc p).state = .running then
    match queue value with
    | some level => some (s.setProc p fun x => { x with priority := level })
    | none => some s
  else
    none

end State

def step {F : Type*} (fl : Floats F) (s : State) : Event → Option State
  | .allocproc => s.allocproc
  | .forkFails p => s.move p .embryo .unused
  | .forkStarts p => s.move p .embryo .runnable
  | .schedule draws => s.schedule fl draws
  | .yield p => s.move p .running .runnable
  | .sleep p => s.move p .running .sleeping
  | .wakeup p => s.move p .sleeping .runnable
  | .exit p => s.move p .running .zombie
  | .wait p => s.move p .zombie .unused
  | .exec p =>
    if (s.proc p).state = .running then
      some (s.setProc p fun x => { x with priority := .pl2 })
    else
      none
  | .setTickets p value => s.setTickets p value
  | .setQueue p value => s.setQueue p value
  | .tick => some { s with ticks := s.ticks + 1 }

def empty : State where
  proc _ := ⟨.unused, .pl1, 0, 0, 0, 0⟩
  ticks := 0

end Xv6.Scheduler
