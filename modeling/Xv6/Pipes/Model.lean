import Xv6.Library.RingBuffer
import Xv6.PTable.Model

/-!
# Pipes

One pipe of `pipe.c` and any number of processes that call `pipewrite`, `piperead`
and `pipeclose` on it, with `sleep`, `wakeup` and `kill` of `proc.c`. A process holds
`p->lock` from one event to another, and `ptable.lock` in the middle of `sleep`,
where it releases `p->lock` before it is asleep. `wakeup` and `kill` are events that
need `ptable.lock` to be free. An iteration of a loop is one event of the process
that holds `p->lock`.

The state of a process is `RUNNING` while it is outside of `sleep`: whether it is on
a processor does not matter here. Three lists are not in the source. `stored` has the
bytes that were put into the pipe, each with its writer. `delivered` is the
concatenation of the buffers that `piperead` has returned, and `sent p` that of the
buffers that `p` has handed to `pipewrite`, up to where the call gave up if it did. When
both ends are closed the page is freed, and there is no pipe any more.
-/

namespace Xv6.Pipes

open Option

open PTable (ProcState)

abbrev pipeSize : ℕ := 512

instance neZeroPipeSize : NeZero pipeSize := ⟨by decide⟩

abbrev Byte := BitVec 8

/-- `struct pipe`, without its lock. -/
structure Pipe where
  ring : RingBuffer 32 pipeSize Byte
  readopen : Bool
  writeopen : Bool

inductive Chan where
  | nread
  | nwrite
  deriving DecidableEq

structure Proc where
  state : ProcState
  chan : Option Chan
  killed : Bool

inductive Call where
  | pipewrite (addr : List Byte)
  | piperead (n : ℤ)
  | pipeclose (writable : Bool)
  deriving DecidableEq

/-- The loop in which a process sleeps: `pipewrite` before it stores `addr[i]`, or
`piperead` of at most `n` bytes. -/
inductive Loop where
  | write (addr : List Byte) (i : ℕ)
  | read (n : ℤ)
  deriving DecidableEq

def Loop.chan : Loop → Chan
  | .write _ _ => .nwrite
  | .read _ => .nread

/-- A call that has only to release `p->lock` and to return. -/
inductive Return where
  | write (addr : List Byte)
  | read (n : ℤ) (addr : List Byte)
  | close
  deriving DecidableEq

/-- What follows a `wakeup`. -/
inductive Next where
  | sleep (l : Loop)
  | ret (r : Return)
  deriving DecidableEq

inductive Pc where
  /-- Outside of the calls, with the value that the last one returned. -/
  | out (r : Option ℤ)
  /-- About to take `p->lock`. -/
  | entry (c : Call)
  /-- At the head of the loop of `pipewrite`. -/
  | storing (addr : List Byte) (i : ℕ)
  /-- At the head of the first loop of `piperead`. -/
  | testing (n : ℤ)
  /-- At the head of the second loop of `piperead`. -/
  | copying (n : ℤ) (addr : List Byte)
  /-- In `pipeclose`, with the lock. -/
  | closing (writable : Bool)
  /-- About to call `wakeup`. -/
  | waking (c : Chan) (k : Next)
  | returning (r : Return)
  /-- In `sleep`, about to take `ptable.lock`. -/
  | sleepLock (l : Loop)
  /-- In `sleep`, about to release `p->lock`. -/
  | sleepRelease (l : Loop)
  /-- In `sleep`, about to set `chan` and `state`. -/
  | sleepSet (l : Loop)
  | asleep (l : Loop)
  /-- In `sleep`, about to take `p->lock` again. -/
  | sleepRelock (l : Loop)
  deriving DecidableEq

def Call.start : Call → Pc
  | .pipewrite addr => .storing addr 0
  | .piperead n => .testing n
  | .pipeclose writable => .closing writable

def Loop.head : Loop → Pc
  | .write addr i => .storing addr i
  | .read n => .testing n

def Next.pc : Next → Pc
  | .sleep l => .sleepLock l
  | .ret r => .returning r

structure State (P : Type*) where
  pipe : Pipe
  freed : Bool
  /-- The process that holds `p->lock`. -/
  lock : Option P
  /-- The process in `sleep` that holds `ptable.lock`. -/
  ptable : Option P
  proc : P → Proc
  pc : P → Pc
  stored : List (P × Byte)
  delivered : List Byte
  sent : P → List Byte

/-- What happens: a process calls a routine, a process in a call goes on, or a
process is killed. -/
inductive Event (P : Type*) where
  | call (p : P) (c : Call)
  | run (p : P)
  | kill (p : P)

/-- The pipe that `pipealloc` makes, on a page with any contents. -/
def pipealloc (P : Type*) (data : Fin pipeSize → Byte) : State P where
  pipe := { ring := ⟨0, 0, data⟩, readopen := true, writeopen := true }
  freed := false
  lock := none
  ptable := none
  proc _ := { state := .running, chan := none, killed := false }
  pc _ := .out none
  stored := []
  delivered := []
  sent _ := []

namespace State

variable {P : Type*}

def wakeup1 (s : State P) (c : Chan) : State P :=
  { s with proc := fun q =>
      if (s.proc q).state = .sleeping ∧ (s.proc q).chan = some c then
        { s.proc q with state := .runnable }
      else
        s.proc q }

def setRing (s : State P) (r : RingBuffer 32 pipeSize Byte) : State P :=
  { s with pipe := { s.pipe with ring := r } }

variable [DecidableEq P]

def goto (s : State P) (p : P) (c : Pc) : State P :=
  { s with pc := Function.update s.pc p c }

def setProc (s : State P) (p : P) (pr : Proc) : State P :=
  { s with proc := Function.update s.proc p pr }

def ret (s : State P) (p : P) (r : Option ℤ) : State P :=
  { s with lock := none }.goto p (.out r)

def kill (s : State P) (p : P) : State P :=
  s.setProc p { s.proc p with
    killed := true
    state := if (s.proc p).state = .sleeping then .runnable else (s.proc p).state }

def send (s : State P) (p : P) (bytes : List Byte) : State P :=
  { s with sent := Function.update s.sent p (s.sent p ++ bytes) }

/-- The loop of `pipewrite`: the test of the inner loop, and the store when it fails. -/
def pipewrite (s : State P) (p : P) (addr : List Byte) (i : ℕ) : State P :=
  match addr[i]? with
  | none => s.goto p (.waking .nread (.ret (.write addr)))
  | some b =>
    if s.pipe.ring.Full then
      if s.pipe.readopen = false ∨ (s.proc p).killed = true then
        (s.send p (addr.take i)).ret p (some (-1))
      else
        s.goto p (.waking .nread (.sleep (.write addr i)))
    else
      { s.setRing (s.pipe.ring.put b) with stored := s.stored ++ [(p, b)] }.goto p
        (.storing addr (i + 1))

def pipereadTest (s : State P) (p : P) (n : ℤ) : State P :=
  if s.pipe.ring.Empty ∧ s.pipe.writeopen = true then
    if (s.proc p).killed = true then
      s.ret p (some (-1))
    else
      s.goto p (.sleepLock (.read n))
  else
    s.goto p (.copying n [])

def pipereadCopy (s : State P) (p : P) (n : ℤ) (addr : List Byte) : State P :=
  if (addr.length : ℤ) < n then
    if s.pipe.ring.Empty then
      s.goto p (.waking .nwrite (.ret (.read n addr)))
    else
      (s.setRing s.pipe.ring.drop).goto p (.copying n (addr ++ [s.pipe.ring.front]))
  else
    s.goto p (.waking .nwrite (.ret (.read n addr)))

/-- `pipeclose`, up to the `wakeup`. -/
def pipeclose (s : State P) (p : P) (writable : Bool) : State P :=
  if writable then
    { s with pipe := { s.pipe with writeopen := false } }.goto p (.waking .nread (.ret .close))
  else
    { s with pipe := { s.pipe with readopen := false } }.goto p (.waking .nwrite (.ret .close))

/-- The end of a call. The last `pipeclose` frees the page. -/
def leave (s : State P) (p : P) : Return → State P
  | .write addr => (s.send p addr).ret p (some addr.length)
  | .read _ addr => { s with delivered := s.delivered ++ addr }.ret p (some addr.length)
  | .close =>
    if s.pipe.readopen = false ∧ s.pipe.writeopen = false then
      { s.ret p none with freed := true }
    else
      s.ret p none

def run (s : State P) (p : P) : Option (State P) :=
  match s.pc p with
  | .out _ => none
  | .entry c =>
    if s.lock = none then some ({ s with lock := some p }.goto p c.start) else none
  | .storing addr i => some (s.pipewrite p addr i)
  | .testing n => some (s.pipereadTest p n)
  | .copying n addr => some (s.pipereadCopy p n addr)
  | .closing writable => some (s.pipeclose p writable)
  | .waking c k => if s.ptable = none then some ((s.wakeup1 c).goto p k.pc) else none
  | .returning r => some (s.leave p r)
  | .sleepLock l =>
    if s.ptable = none then some ({ s with ptable := some p }.goto p (.sleepRelease l))
    else none
  | .sleepRelease l => some ({ s with lock := none }.goto p (.sleepSet l))
  | .sleepSet l =>
    some (({ s with ptable := none }.setProc p
      { s.proc p with chan := some l.chan, state := .sleeping }).goto p (.asleep l))
  | .asleep l =>
    if (s.proc p).state = .runnable ∧ s.ptable = none then
      some ((s.setProc p { s.proc p with chan := none, state := .running }).goto p (.sleepRelock l))
    else
      none
  | .sleepRelock l =>
    if s.lock = none then some ({ s with lock := some p }.goto p l.head) else none

end State

variable {P : Type*} [DecidableEq P]

def step (s : State P) (e : Event P) : Option (State P) :=
  if s.freed then none
  else match e with
    | .call p c =>
      match s.pc p with
      | .out _ => some (s.goto p (.entry c))
      | _ => none
    | .run p => s.run p
    | .kill p => if s.ptable = none then some (s.kill p) else none

end Xv6.Pipes
