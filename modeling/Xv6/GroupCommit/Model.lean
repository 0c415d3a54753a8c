import Mathlib.Data.Finset.Card
import Xv6.Library.Machine
import Xv6.Param

/-!
# Concurrent operations on the log

The critical sections of `begin_op`, `log_write` and `end_op`, and the steps of
`commit`, by any number of processes. `log_write` tests the header count and
`outstanding` before it takes `log.lock`, so the two tests are events of their
own. `commit` runs without the lock, one event for each block it copies.

`lh` lists the entries `lh.block[0..n)`. A process that panics halts the kernel,
and so does a store past the end of `lh.block`, after which nothing is known.
The commit events carry the block numbers that they write.
-/

namespace Xv6.GroupCommit

variable {P : Type*}

/-- Where a process is in `log.c`. -/
inductive Pc where
  | idle
  | asleep
  /-- Woken up in `begin_op`, about to test again. -/
  | woken
  /-- Between `begin_op` and `end_op`, outside of `log_write`. -/
  | inOp
  /-- In `log_write` of a block, past the test for room. -/
  | tested (b : ℕ)
  /-- In `log_write` of a block, past both tests. -/
  | admitted (b : ℕ)
  /-- In `end_op`, about to call `commit`. -/
  | entry
  | writeLog (tail : ℕ)
  | install (tail : ℕ)
  /-- `log.lh.n` is cleared, but not yet on disk. -/
  | erase
  | done
  deriving DecidableEq

/-- What a process does to the log in the meantime. -/
inductive Role where
  | outside
  | op
  | commit
  deriving DecidableEq

def Pc.role : Pc → Role
  | .idle | .asleep | .woken => .outside
  | .inOp | .tested _ | .admitted _ => .op
  | .entry | .writeLog _ | .install _ | .erase | .done => .commit

inductive Panic where
  | tooBig
  | outsideOfTrans
  | logCommitting
  | headerOverrun
  deriving DecidableEq

structure State (P : Type*) where
  size : ℕ
  outstanding : ℤ
  committing : Bool
  lh : List ℕ
  pc : P → Pc
  halted : Option Panic

inductive Event (P : Type*) where
  | beginOp (p : P)
  | testRoom (p : P) (b : ℕ)
  | testTrans (p : P)
  | record (p : P) (b : ℕ)
  | overrun (p : P) (b : ℕ)
  | endOp (p : P)
  | commitTest (p : P)
  | copyBlock (p : P) (b : ℕ)
  | writeHead (p : P) (bs : List ℕ)
  | installBlock (p : P) (b : ℕ)
  | clearHead (p : P)
  | eraseHead (p : P) (bs : List ℕ)
  | finish (p : P)

/-- The log that `initlog` sets up, with no operation under way. -/
def initlog (P : Type*) (size : ℕ) : State P where
  size := size
  outstanding := 0
  committing := false
  lh := []
  pc _ := .idle
  halted := none

/-- Append a block number unless it is there: the loop of `log_write` stops at
the entry that holds the block, or at `n`. -/
def addBlock (bs : List ℕ) (b : ℕ) : List ℕ := if b ∈ bs then bs else bs ++ [b]

namespace State

def halt (s : State P) (e : Panic) : State P := { s with halted := some e }

def wakeup (s : State P) : State P :=
  { s with pc := fun p => if s.pc p = .asleep then .woken else s.pc p }

variable [DecidableEq P]

def goto (s : State P) (p : P) (c : Pc) : State P :=
  { s with pc := Function.update s.pc p c }

def beginOp (s : State P) (p : P) : Option (State P) :=
  if s.pc p = .idle ∨ s.pc p = .woken then
    if s.committing then
      some (s.goto p .asleep)
    else if logSize < s.lh.length + (s.outstanding + 1) * maxOpBlocks then
      some (s.goto p .asleep)
    else
      some { s.goto p .inOp with outstanding := s.outstanding + 1 }
  else
    none

def testRoom (s : State P) (p : P) (b : ℕ) : Option (State P) :=
  if s.pc p = .inOp then
    if logSize ≤ s.lh.length ∨ s.size - 1 ≤ s.lh.length then
      some (s.halt .tooBig)
    else
      some (s.goto p (.tested b))
  else
    none

def testTrans (s : State P) (p : P) : Option (State P) :=
  match s.pc p with
  | .tested b =>
    if s.outstanding < 1 then
      some (s.halt .outsideOfTrans)
    else
      some (s.goto p (.admitted b))
  | _ => none

/-- The critical section of `log_write`, storing within `lh.block`. -/
def record (s : State P) (p : P) (b : ℕ) : Option (State P) :=
  if s.pc p = .admitted b ∧ (b ∈ s.lh ∨ s.lh.length < logSize) then
    some { s.goto p .inOp with lh := addBlock s.lh b }
  else
    none

/-- The critical section of `log_write`, storing past the end of `lh.block`. -/
def overrun (s : State P) (p : P) (b : ℕ) : Option (State P) :=
  if s.pc p = .admitted b ∧ b ∉ s.lh ∧ logSize ≤ s.lh.length then
    some (s.halt .headerOverrun)
  else
    none

/-- The first critical section of `end_op`. -/
def endOp (s : State P) (p : P) : Option (State P) :=
  if s.pc p = .inOp then
    if s.committing then
      some ({ s with outstanding := s.outstanding - 1 }.halt .logCommitting)
    else if s.outstanding - 1 = 0 then
      some { s.goto p .entry with outstanding := s.outstanding - 1, committing := true }
    else
      some ({ s with outstanding := s.outstanding - 1 }.goto p .idle).wakeup
  else
    none

def commitTest (s : State P) (p : P) : Option (State P) :=
  if s.pc p = .entry then
    if 0 < s.lh.length then some (s.goto p (.writeLog 0)) else some (s.goto p .done)
  else
    none

def copyBlock (s : State P) (p : P) (b : ℕ) : Option (State P) :=
  match s.pc p with
  | .writeLog tail =>
    if s.lh[tail]? = some b then some (s.goto p (.writeLog (tail + 1))) else none
  | _ => none

def writeHead (s : State P) (p : P) (bs : List ℕ) : Option (State P) :=
  match s.pc p with
  | .writeLog tail =>
    if s.lh.length ≤ tail ∧ bs = s.lh then some (s.goto p (.install 0)) else none
  | _ => none

def installBlock (s : State P) (p : P) (b : ℕ) : Option (State P) :=
  match s.pc p with
  | .install tail =>
    if s.lh[tail]? = some b then some (s.goto p (.install (tail + 1))) else none
  | _ => none

def clearHead (s : State P) (p : P) : Option (State P) :=
  match s.pc p with
  | .install tail =>
    if s.lh.length ≤ tail then some { s.goto p .erase with lh := [] } else none
  | _ => none

def eraseHead (s : State P) (p : P) (bs : List ℕ) : Option (State P) :=
  if s.pc p = .erase ∧ bs = s.lh then some (s.goto p .done) else none

def finish (s : State P) (p : P) : Option (State P) :=
  if s.pc p = .done then some ({ s with committing := false }.goto p .idle).wakeup else none

end State

def step [DecidableEq P] (s : State P) (e : Event P) : Option (State P) :=
  if s.halted.isSome then none
  else
    match e with
    | .beginOp p => s.beginOp p
    | .testRoom p b => s.testRoom p b
    | .testTrans p => s.testTrans p
    | .record p b => s.record p b
    | .overrun p b => s.overrun p b
    | .endOp p => s.endOp p
    | .commitTest p => s.commitTest p
    | .copyBlock p b => s.copyBlock p b
    | .writeHead p bs => s.writeHead p bs
    | .installBlock p b => s.installBlock p b
    | .clearHead p => s.clearHead p
    | .eraseHead p bs => s.eraseHead p bs
    | .finish p => s.finish p

def Event.joinGroup (bs : List ℕ) : Event P → List ℕ
  | .record _ b => addBlock bs b
  | .finish _ => []
  | _ => bs

/-- The distinct blocks logged since the last commit has finished. -/
def group (es : List (Event P)) : List ℕ := es.foldl Event.joinGroup []

def Event.joinOp [DecidableEq P] (p : P) (bs : List ℕ) : Event P → List ℕ
  | .beginOp q => if q = p then [] else bs
  | .record q b => if q = p then addBlock bs b else bs
  | _ => bs

/-- The distinct blocks that `p` has logged since it last entered `begin_op`. -/
def loggedBy [DecidableEq P] (p : P) (es : List (Event P)) : List ℕ :=
  es.foldl (Event.joinOp p) []

/-- The block numbers that one commit copied to the log, named in the header
and copied to their homes. -/
structure CommitRecord where
  copied : List ℕ
  header : List ℕ
  installed : List ℕ

/-- The commits that have finished, and what the current one has written. -/
structure Ledger where
  finished : List CommitRecord
  current : CommitRecord

def Ledger.add (l : Ledger) : Event P → Ledger
  | .copyBlock _ b => { l with current.copied := l.current.copied ++ [b] }
  | .writeHead _ bs => { l with current.header := bs }
  | .installBlock _ b => { l with current.installed := l.current.installed ++ [b] }
  | .finish _ => ⟨l.finished ++ [l.current], ⟨[], [], []⟩⟩
  | _ => l

def ledger (es : List (Event P)) : Ledger := es.foldl Ledger.add ⟨[], ⟨[], [], []⟩⟩

end Xv6.GroupCommit
