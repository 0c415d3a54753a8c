import Xv6.Library.Gather
import Xv6.Library.Machine
import Xv6.Library.Routine
import Xv6.Param

/-!
# The log of system calls

`syscall` logs every call of a process in the process's `sysclog`: it looks for the first
empty pair before it runs the call and fills the pair in afterwards. `exit` copies the log to
a record of `pptable`, and so does `kill`, which also copies it to the log of init;
`print_syscalls` prints the logs of both tables. Every access to `sysclog`, to `pptable.proc`
and to the table of names is checked, and a routine stops at the first one that is out of
bounds.

The processes run concurrently. The entry to `syscall` and the return of the call are steps
of their own, so a call may be under way while other processes do anything. `syscall` fills
in a pair without a lock, so the loops of `kill` and of `print_syscalls` over the logs of
other processes go on one pair at a time, while `ptable.lock` keeps out `fork`, `exit`,
`wait` and each other. A critical section that reads no log but the process's own is one step,
and so is the one of `print_syscalls` on the records, which `pptable.lock` protects.
`SLEEPING`, `RUNNABLE` and `RUNNING` are one phase, since nothing here depends on which of
them it is. Which process a `fork` or a `wait` belongs to is left open, and a call may go
through its critical sections more than once.
-/

namespace Xv6.SyscallLog

open Routine Function

abbrev Slot := Fin nProc

structure Entry where
  callno : BitVec 32
  retval : BitVec 32
  deriving DecidableEq

/-- An array of pairs; `NLOGPAIR` of them exist. -/
abbrev Log := ℕ → Entry

inductive Phase where
  | unused
  | embryo
  | live
  | zombie
  deriving DecidableEq

structure Proc where
  phase : Phase
  pid : BitVec 32
  sysclog : Log

structure Record where
  pid : BitVec 32
  sysclog : Log

inductive Line where
  | proc (pid : BitVec 32)
  | call (name : String) (retval : BitVec 32)
  | terminated
  deriving DecidableEq

structure Tables where
  proc : Slot → Proc
  pptable : ℕ → Record
  initproc : Slot
  nextpid : BitVec 32
  console : List Line

inductive Access where
  | sysclog (i : ℕ)
  | pptable (i : ℕ)
  | names (i : ℕ)
  deriving DecidableEq

abbrev Kernel := Routine Access Tables

abbrev sysFork : BitVec 32 := 1

abbrev sysExit : BitVec 32 := 2

abbrev sysWait : BitVec 32 := 3

abbrev sysKill : BitVec 32 := 6

abbrev sysPrintSyscalls : BitVec 32 := 24

abbrev sysPs : BitVec 32 := 27

abbrev nSyscalls : ℤ := 30

def recognised (num : BitVec 32) : Bool := 0 < num.toInt ∧ num.toInt < nSyscalls

def names : List String :=
  ["", "fork", "exit", "wait", "pipe", "read", "kill", "exec", "fstat", "chdir", "dup",
    "getpid", "sbrk", "sleep", "uptime", "open", "write", "mknod", "unlink", "link", "mkdir",
    "close", "count_num_of_digits", "set_alarm", "print_syscalls", "set_edx",
    "read_registers"]

namespace Tables

def setProc (s : Tables) (p : Slot) (f : Proc → Proc) : Tables :=
  { s with proc := update s.proc p (f (s.proc p)) }

def setLog (s : Tables) (p : Slot) (log : Log) : Tables :=
  s.setProc p fun x => { x with sysclog := log }

def setRecord (s : Tables) (n : ℕ) (r : Record) : Tables :=
  { s with pptable := update s.pptable n r }

def print (s : Tables) (line : Line) : Tables :=
  { s with console := s.console ++ [line] }

def victim (s : Tables) (pid : BitVec 32) : Option Slot :=
  (List.finRange nProc).find? fun q => (s.proc q).pid = pid

def unused (s : Tables) : Option Slot :=
  (List.finRange nProc).find? fun q => (s.proc q).phase = .unused

end Tables

/-! ## Checked accesses -/

def readLog (p : Slot) (i : ℕ) : Kernel Entry :=
  if i < nLogPair then look fun s => (s.proc p).sysclog i else stop (.sysclog i)

def writeLog (p : Slot) (i : ℕ) (e : Entry) : Kernel Unit :=
  if i < nLogPair then
    update fun s => s.setLog p (update (s.proc p).sysclog i e)
  else
    stop (.sysclog i)

def readPid (n : ℕ) : Kernel (BitVec 32) :=
  if n < nProc then look fun s => (s.pptable n).pid else stop (.pptable n)

def writePid (n : ℕ) (pid : BitVec 32) : Kernel Unit :=
  if n < nProc then
    update fun s => s.setRecord n { s.pptable n with pid := pid }
  else
    stop (.pptable n)

def readRecord (n i : ℕ) : Kernel Entry :=
  if n < nProc then
    if i < nLogPair then look fun s => (s.pptable n).sysclog i else stop (.sysclog i)
  else
    stop (.pptable n)

def writeRecord (n i : ℕ) (e : Entry) : Kernel Unit :=
  if n < nProc then
    if i < nLogPair then
      update fun s => s.setRecord n { s.pptable n with sysclog := update (s.pptable n).sysclog i e }
    else
      stop (.sysclog i)
  else
    stop (.pptable n)

def readName (i : ℕ) : Kernel String :=
  match names[i]? with
  | some name => pure name
  | none => stop (.names i)

/-! ## The functions -/

/-- The first loop of `syscall`, which leaves `npair`. -/
def findPair (p : Slot) : Kernel ℕ :=
  search nLogPair fun i => do
    let s ← readLog p i
    pure (s.callno = 0)

structure Call where
  num : BitVec 32
  npair : ℕ
  deriving DecidableEq

def logCall (p : Slot) (call : Call) (retval : BitVec 32) : Kernel Unit :=
  if call.npair < nLogPair then writeLog p call.npair ⟨call.num, retval⟩ else pure ()

/-- One round of the loops of `exit` and `kill`, which copy the pairs that are in use. -/
def copyPair (read : ℕ → Kernel Entry) (write : ℕ → Entry → Kernel Unit) (i npair : ℕ) :
    Kernel ℕ := do
  let s ← read i
  if s.callno ≠ 0 then do
    write npair s
    pure (npair + 1)
  else
    pure npair

/-- The loop of `exit` and `kill` that looks for a free record. -/
def findRecord : Kernel ℕ :=
  search nProc fun n => do
    let pid ← readPid n
    pure (pid = 0)

def takeRecord (p : Slot) : Kernel ℕ := do
  let npptable ← findRecord
  let pid ← look fun s => (s.proc p).pid
  writePid npptable pid
  pure npptable

/-- What `exit` does under `pptable.lock`. -/
def exitLog (p : Slot) : Kernel Unit := do
  let npptable ← takeRecord p
  let _ ← foldRange nLogPair (copyPair (readLog p) (writeRecord npptable)) 0
  pure ()

/-- One line of `print_syscalls`. The test lets the number of names itself through. -/
def printEntry (s : Entry) : Kernel Unit :=
  if s.callno.toNat > names.length then
    update fun t => t.print (.call "unknown" s.retval)
  else do
    let name ← readName s.callno.toNat
    update fun t => t.print (.call name s.retval)

def printLog (read : ℕ → Kernel Entry) : Kernel Unit := do
  let _ ← search nLogPair fun i => do
    let s ← read i
    if s.callno = 0 then
      pure true
    else do
      printEntry s
      pure false
  pure ()

def printProc (pid : Kernel (BitVec 32)) (read : ℕ → Kernel Entry) : Kernel Unit := do
  let pid ← pid
  if pid = 0 then
    pure ()
  else do
    update fun t => t.print (.proc pid)
    printLog read

/-- The second critical section of `print_syscalls`. -/
def printTerminated : Kernel ℤ := do
  update fun t => t.print .terminated
  forEach (fun n => printProc (readPid n) (readRecord n)) (List.range nProc)
  pure 23

/-- Where the holder of `ptable.lock` is in a loop over the logs of other processes. -/
inductive Critical where
  /-- The first loop of `kill` has `npair` pairs of `q` copied to init and comes to pair `i`. -/
  | toInit (q : Slot) (i npair : ℕ)
  /-- The last loop of `kill`, which fills the record `n` and goes on with the `npair` of the
  first. -/
  | toRecord (q : Slot) (n i npair : ℕ)
  | listProc (q : Slot)
  | listPair (q : Slot) (i : ℕ)
  deriving DecidableEq

def nextProc (q : Slot) : Option Critical :=
  if h : q.val + 1 < nProc then some (.listProc ⟨q.val + 1, h⟩) else none

/-- The next round of the loop; the lock is released after the last one. -/
def Critical.next : Critical → Kernel (Option Critical)
  | .toInit q i npair =>
    if i < nLogPair then do
      let initproc ← look fun s => s.initproc
      let npair ← copyPair (readLog q) (writeLog initproc) i npair
      pure (some (.toInit q (i + 1) npair))
    else do
      let npptable ← takeRecord q
      pure (some (.toRecord q npptable 0 npair))
  | .toRecord q n i npair =>
    if i < nLogPair then do
      let npair ← copyPair (readLog q) (writeRecord n) i npair
      pure (some (.toRecord q n (i + 1) npair))
    else
      pure none
  | .listProc q => do
    let pid ← look fun s => (s.proc q).pid
    if pid = 0 then
      pure (nextProc q)
    else do
      update fun t => t.print (.proc pid)
      pure (some (.listPair q 0))
  | .listPair q i =>
    if i < nLogPair then do
      let s ← readLog q i
      if s.callno = 0 then
        pure (nextProc q)
      else do
        printEntry s
        pure (some (.listPair q (i + 1)))
    else
      pure (nextProc q)

def Critical.takesRecords : Critical → Bool
  | .toRecord _ _ _ _ => true
  | _ => false

/-! ## The system -/

/-- What a process was when it exited: its pid, its log, and the calls it had completed. -/
structure Exited where
  pid : BitVec 32
  sysclog : Log
  calls : List Entry

/-- `completed` and `exited` only record what has happened. -/
structure System where
  tables : Tables
  call : Slot → Option Call
  critical : Option (Slot × Critical)
  fault : Option Access
  /-- `allocproc` has found no free slot and has written past the end of `ptable.proc`. -/
  overrun : Bool
  /-- The recognised calls that the process of a slot has completed, oldest first. -/
  completed : Slot → List Entry
  exited : List Exited

inductive Event where
  | enter (p : Slot) (num : BitVec 32)
  | ret (p : Slot) (retval : BitVec 32)
  | alloc (p : Slot)
  /-- `fork` finds no memory. -/
  | fail (p np : Slot)
  | start (p np : Slot)
  | exit (p : Slot)
  | reap (p q : Slot)
  | kill (p : Slot) (pid : BitVec 32)
  | print (p : Slot)
  | advance
  | printTerminated (p : Slot)
  deriving DecidableEq

namespace System

def inCall (s : System) (p : Slot) (num : BitVec 32) : Bool :=
  match s.call p with
  | some c => c.num = num
  | none => false

def inside (s : System) (p : Slot) : Bool := s.critical.any fun x => x.1 = p

def exec {α : Type} (s : System) (x : Kernel α) : System :=
  { s with
    tables := (x s.tables).2
    fault := match (x s.tables).1 with
      | .ok _ => none
      | .error a => some a }

/-- `syscall`, up to the call. An unknown number is not logged. -/
def enter (s : System) (p : Slot) (num : BitVec 32) : System :=
  match findPair p s.tables with
  | (.ok npair, t) =>
    { s with
      tables := t
      call := if recognised num then update s.call p (some ⟨num, npair⟩) else s.call }
  | (.error a, t) => { s with tables := t, fault := some a }

def ret (s : System) (p : Slot) (call : Call) (retval : BitVec 32) : System :=
  { s.exec (logCall p call retval) with
    call := update s.call p none
    completed := update s.completed p (s.completed p ++ [⟨call.num, retval⟩]) }

/-- The slot for a new process; its log is not touched yet. When no slot is free,
`allocproc` sets fields of `ptable.proc[NPROC]`. -/
def alloc (s : System) : System :=
  match s.tables.unused with
  | some np =>
    { s with
      tables := { s.tables.setProc np fun x =>
        { x with phase := .embryo, pid := s.tables.nextpid } with
          nextpid := s.tables.nextpid + 1 } }
  | none => { s with overrun := true }

def start (s : System) (np : Slot) : System :=
  { s with
    tables := s.tables.setProc np fun x =>
      { x with phase := .live, sysclog := fun _ => ⟨0, 0⟩ }
    completed := update s.completed np [] }

def exit (s : System) (p : Slot) : System :=
  let t := s.exec (exitLog p)
  { t with
    tables := t.tables.setProc p fun x => { x with phase := .zombie }
    call := update s.call p none
    exited := s.exited ++ [⟨(s.tables.proc p).pid, (s.tables.proc p).sysclog, s.completed p⟩] }

def kill (s : System) (p : Slot) (pid : BitVec 32) : System :=
  match s.tables.victim pid with
  | some q => { s with critical := some (p, .toInit q 0 0) }
  | none => s

def printSyscalls (s : System) (p : Slot) : System :=
  { s with critical := some (p, .listProc 0) }

def advance (s : System) (p : Slot) (c : Critical) : System :=
  match c.next s.tables with
  | (.ok c', t) => { s with tables := t, critical := c'.map (Prod.mk p) }
  | (.error a, t) => { s with tables := t, fault := some a }

end System

/-- One step; none is possible after an access out of bounds. -/
def step (s : System) (e : Event) : Option System :=
  if s.fault.isSome ∨ s.overrun then none
  else
    match e with
    | .enter p num =>
      if (s.tables.proc p).phase = .live ∧ s.call p = none then some (s.enter p num) else none
    | .ret p retval =>
      if s.inside p then none else (s.call p).map fun call => s.ret p call retval
    | .alloc p => if s.critical.isNone ∧ s.inCall p sysFork then some s.alloc else none
    | .fail p np =>
      if s.inCall p sysFork ∧ (s.tables.proc np).phase = .embryo then
        some { s with tables := s.tables.setProc np fun x => { x with phase := .unused } }
      else
        none
    | .start p np =>
      if s.critical.isNone ∧ s.inCall p sysFork ∧ (s.tables.proc np).phase = .embryo then
        some (s.start np)
      else
        none
    | .exit p =>
      if s.critical.isNone ∧ (s.tables.proc p).phase = .live ∧ p ≠ s.tables.initproc ∧
          (s.call p = none ∨ s.inCall p sysExit) then
        some (s.exit p)
      else
        none
    | .reap p q =>
      if s.critical.isNone ∧ s.inCall p sysWait ∧ (s.tables.proc q).phase = .zombie then
        some { s with
          tables := s.tables.setProc q fun x => { x with phase := .unused, pid := 0 } }
      else
        none
    | .kill p pid =>
      if s.critical.isNone ∧ s.inCall p sysKill then some (s.kill p pid) else none
    | .print p =>
      if s.critical.isNone ∧ s.inCall p sysPrintSyscalls then some (s.printSyscalls p) else none
    | .advance => s.critical.map fun x => s.advance x.1 x.2
    | .printTerminated p =>
      if s.inCall p sysPrintSyscalls ∧ s.inside p = false ∧
          s.critical.all (fun x => x.2.takesRecords = false) then
        some (s.exec printTerminated)
      else
        none

def boot (initproc : Slot) : System where
  tables :=
    { proc := fun p =>
        if p = initproc then ⟨.live, 1, fun _ => ⟨0, 0⟩⟩ else ⟨.unused, 0, fun _ => ⟨0, 0⟩⟩
      pptable := fun _ => ⟨0, fun _ => ⟨0, 0⟩⟩
      initproc := initproc
      nextpid := 2
      console := [] }
  call _ := none
  critical := none
  fault := none
  overrun := false
  completed _ := []
  exited := []

end Xv6.SyscallLog
