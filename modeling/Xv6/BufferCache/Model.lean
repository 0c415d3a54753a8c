import Xv6.GroupCommit.Model
import Xv6.Library.LinkedRing
import Xv6.Storage.Buffer

/-!
# The buffer cache under concurrent use

The critical sections of `bio.c` by any number of processes, over the disk of
`memide.c`. The list of the buffers is here what it is in the source, the links
`next` and `prev` of every buffer and of `bcache.head`, which is the node `none`,
and a search of the list follows the links. A process may hold several buffers.
In the middle of `bread` it is waiting for the lock of the buffer that `bget` has
chosen, or it has got that lock and has not tested `B_VALID` yet; in the middle of
`brelse` it has released the lock but not its reference.

The fields `image`, `given` and `touched` are not in the source. They record the
disk at boot, the contents that `log_write` and `bwrite` have given to blocks,
newest first, and which buffers were changed since.

A routine that panics stops the kernel: the event that leads there is not enabled.
-/

namespace Xv6.BufferCache

open LinkedRing Function

/-- `struct buf`. The sleep lock is the process that holds it. -/
structure Buf (P : Type*) where
  valid : Bool
  dirty : Bool
  dev : ℕ
  blockno : ℕ
  lock : Option P
  refcnt : ℕ
  data : Block

/-- Where a process is in `bio.c`. -/
inductive Pc where
  /-- Outside of `bread` and `brelse`. -/
  | idle
  /-- In `bread`, with a reference to the buffer and without its lock. -/
  | waiting (dev blockno : ℕ) (i : Fin nBuf)
  /-- In `bread`, past `bget`. -/
  | locked (dev blockno : ℕ) (i : Fin nBuf)
  /-- In `brelse`, past `releasesleep`. -/
  | released (i : Fin nBuf)
  deriving DecidableEq

/-- The fields of `log` that `log_write` uses. -/
structure Log where
  size : ℕ
  outstanding : ℤ
  lh : List ℕ

/-- The buffer cache, the disk and the processes that use them. -/
structure State (P : Type*) where
  buf : Fin nBuf → Buf P
  links : Links (Fin nBuf)
  disk : ℕ → Block
  diskSize : ℕ
  log : Log
  pc : P → Pc
  image : ℕ → Block
  given : List ((ℕ × ℕ) × Block)
  touched : Fin nBuf → Bool

/-- Why a routine does not return. The last one is a search that does not end. -/
inductive Stop where
  | noBuffers
  | bwriteNotHeld
  | brelseNotHeld
  | bufNotLocked
  | nothingToDo
  | notDisk1
  | outOfRange
  | tooBig
  | outsideOfTrans
  | endless
  deriving DecidableEq

/-- What a process does. Between the others, `log` stands for whatever the rest of
`log.c` does to the header and to `outstanding`. -/
inductive Event (P : Type*) where
  /-- `bread` calls `bget`, up to the release of `bcache.lock`. -/
  | bget (p : P) (dev blockno : ℕ)
  | acquiresleep (p : P)
  | bread (p : P)
  | modify (p : P) (i : Fin nBuf) (d : Block)
  | logWrite (p : P) (i : Fin nBuf)
  | bwrite (p : P) (i : Fin nBuf)
  /-- `brelse`, up to `releasesleep`. -/
  | brelse (p : P) (i : Fin nBuf)
  /-- The critical section of `brelse`. -/
  | unref (p : P)
  | log (l : Log)

def binit : Links (Fin nBuf) := (List.finRange nBuf).foldl Links.insertFront Links.empty

/-- The state after `binit`, with no process in `bio.c`. -/
def boot (P : Type*) (image : ℕ → Block) (diskSize : ℕ) (log : Log) : State P where
  buf _ :=
    { valid := false, dirty := false, dev := 0, blockno := 0, lock := none, refcnt := 0,
      data := fun _ => 0 }
  links := binit
  disk := image
  diskSize := diskSize
  log := log
  pc _ := .idle
  image := image
  given := []
  touched _ := false

namespace State

variable {P : Type*}

def contents (s : State P) (dev blockno : ℕ) : Block :=
  (s.given.lookup (dev, blockno)).getD (s.image blockno)

/-- The cache as `Xv6.BCache` has it, with the list of its buffers in some order. -/
def bcache (s : State P) (order : List (Fin nBuf)) : BCache where
  buf i :=
    { valid := (s.buf i).valid, dirty := (s.buf i).dirty, dev := (s.buf i).dev,
      blockno := (s.buf i).blockno, locked := (s.buf i).lock.isSome,
      refcnt := (s.buf i).refcnt, data := (s.buf i).data }
  order := order

def setBuf (s : State P) (i : Fin nBuf) (f : Buf P → Buf P) : State P :=
  { s with buf := update s.buf i (f (s.buf i)) }

def give (s : State P) (i : Fin nBuf) : State P :=
  { s with
    given := (((s.buf i).dev, (s.buf i).blockno), (s.buf i).data) :: s.given
    touched := update s.touched i false }

section

variable (s : State P)
include s

@[simp] theorem setBuf_touched (i : Fin nBuf) (f : Buf P → Buf P) :
    (s.setBuf i f).touched = s.touched := rfl

@[simp] theorem setBuf_buf_self (i : Fin nBuf) (f : Buf P → Buf P) :
    (s.setBuf i f).buf i = f (s.buf i) := by
  simp only [setBuf, update_self]

theorem setBuf_buf_of_ne {i j : Fin nBuf} (f : Buf P → Buf P) (h : j ≠ i) :
    (s.setBuf i f).buf j = s.buf j := by
  simp only [setBuf, update_of_ne h]

theorem setBuf_setBuf (i : Fin nBuf) (f g : Buf P → Buf P) :
    (s.setBuf i f).setBuf i g = s.setBuf i fun b => g (f b) := by
  simp [setBuf]

theorem give_touched (i j : Fin nBuf) :
    (s.give i).touched j = if j = i then false else s.touched j := by
  simp only [give, update_apply]

theorem give_contents_self (i : Fin nBuf) :
    (s.give i).contents (s.buf i).dev (s.buf i).blockno = (s.buf i).data := by
  simp [contents, give]

theorem give_contents_of_ne {i : Fin nBuf} {dev blockno : ℕ}
    (h : (dev, blockno) ≠ ((s.buf i).dev, (s.buf i).blockno)) :
    (s.give i).contents dev blockno = s.contents dev blockno := by
  simp only [contents, give, List.lookup_cons, beq_eq_false_iff_ne.2 h]

end

def modify (s : State P) (i : Fin nBuf) (d : Block) : State P :=
  { s.setBuf i fun b => { b with data := d } with touched := update s.touched i true }

def holds (s : State P) (dev blockno : ℕ) (i : Fin nBuf) : Bool :=
  (s.buf i).dev == dev && (s.buf i).blockno == blockno

/-- May this buffer be recycled? -/
def unused (s : State P) (i : Fin nBuf) : Bool :=
  (s.buf i).refcnt == 0 && !(s.buf i).dirty

/-- The critical section of `bget`: search the list for the block, most recently
used first, and then for a buffer to recycle, least recently used first. -/
def bget (s : State P) (dev blockno : ℕ) : Except Stop (Fin nBuf × State P) :=
  match Links.walk s.links.next (s.holds dev blockno) (nBuf + 1) (s.links.next none) with
  | none => .error .endless
  | some (some i) => .ok (i, s.setBuf i fun b => { b with refcnt := b.refcnt + 1 })
  | some none =>
    match Links.walk s.links.prev s.unused (nBuf + 1) (s.links.prev none) with
    | none => .error .endless
    | some (some i) =>
      .ok (i, s.setBuf i fun b =>
        { b with dev := dev, blockno := blockno, valid := false, dirty := false,
                 refcnt := 1 })
    | some none => .error .noBuffers

/-- The critical section of `brelse`: give up the reference, and move the buffer to
the front of the list when it was the last one. -/
def unref (s : State P) (i : Fin nBuf) : State P :=
  let s := s.setBuf i fun b => { b with refcnt := b.refcnt - 1 }
  if (s.buf i).refcnt = 0 then
    { s with links := (s.links.unlink i).insertFront i }
  else
    s

section

variable (s : State P) (i : Fin nBuf)
include s i

theorem unref_buf : (s.unref i).buf =
      update s.buf i { s.buf i with refcnt := (s.buf i).refcnt - 1 } := by
  rw [unref]
  split
  · rfl
  · rfl

@[simp] theorem unref_pc : (s.unref i).pc = s.pc := by
  rw [unref]
  split
  · rfl
  · rfl

@[simp] theorem unref_touched : (s.unref i).touched = s.touched := by
  rw [unref]
  split
  · rfl
  · rfl

@[simp] theorem unref_disk : (s.unref i).disk = s.disk := by
  rw [unref]
  split
  · rfl
  · rfl

@[simp] theorem unref_contents : (s.unref i).contents = s.contents := by
  rw [unref]
  split
  · rfl
  · rfl

end

variable [DecidableEq P]

def goto (s : State P) (p : P) (c : Pc) : State P :=
  { s with pc := update s.pc p c }

@[simp] theorem goto_touched (s : State P) (p : P) (c : Pc) :
    (s.goto p c).touched = s.touched := rfl

/-- `iderw` of `memide.c`. -/
def iderw (s : State P) (p : P) (i : Fin nBuf) : Except Stop (State P) :=
  let b := s.buf i
  if b.lock ≠ some p then
    .error .bufNotLocked
  else if b.valid = true ∧ b.dirty = false then
    .error .nothingToDo
  else if b.dev ≠ rootDev then
    .error .notDisk1
  else if s.diskSize ≤ b.blockno then
    .error .outOfRange
  else if b.dirty then
    .ok { s.setBuf i fun b => { b with dirty := false, valid := true } with
          disk := update s.disk b.blockno b.data }
  else
    .ok (s.setBuf i fun b => { b with data := s.disk b.blockno, valid := true })

def bread (s : State P) (p : P) (i : Fin nBuf) : Except Stop (State P) :=
  if (s.buf i).valid = false then s.iderw p i else .ok s

def bwrite (s : State P) (p : P) (i : Fin nBuf) : Except Stop (State P) :=
  if (s.buf i).lock ≠ some p then
    .error .bwriteNotHeld
  else
    ((s.setBuf i fun b => { b with dirty := true }).iderw p i).map fun t => t.give i

def logWrite (s : State P) (i : Fin nBuf) : Except Stop (State P) :=
  if logSize ≤ s.log.lh.length ∨ s.log.size - 1 ≤ s.log.lh.length then
    .error .tooBig
  else if s.log.outstanding < 1 then
    .error .outsideOfTrans
  else
    let s := { s with
      log := { s.log with lh := GroupCommit.addBlock s.log.lh (s.buf i).blockno } }
    .ok ((s.setBuf i fun b => { b with dirty := true }).give i)

def brelse (s : State P) (p : P) (i : Fin nBuf) : Except Stop (State P) :=
  if (s.buf i).lock ≠ some p then
    .error .brelseNotHeld
  else
    .ok ((s.setBuf i fun b => { b with lock := none }).goto p (.released i))

end State

variable {P : Type*} [DecidableEq P]

/-- One event. A process uses a buffer outside of `bread` and `brelse`, and only
while it holds the buffer's lock. -/
def step (s : State P) : Event P → Option (State P)
  | .bget p dev blockno =>
    if s.pc p = .idle then
      (s.bget dev blockno).toOption.map fun r => r.2.goto p (.waiting dev blockno r.1)
    else
      none
  | .acquiresleep p =>
    match s.pc p with
    | .waiting dev blockno i =>
      if (s.buf i).lock = none then
        some ((s.setBuf i fun b => { b with lock := some p }).goto p (.locked dev blockno i))
      else
        none
    | _ => none
  | .bread p =>
    match s.pc p with
    | .locked _ _ i => (s.bread p i).toOption.map fun t => t.goto p .idle
    | _ => none
  | .modify p i d =>
    if s.pc p = .idle ∧ (s.buf i).lock = some p then
      some (s.modify i d)
    else
      none
  | .logWrite p i =>
    if s.pc p = .idle ∧ (s.buf i).lock = some p then
      (s.logWrite i).toOption
    else
      none
  | .bwrite p i => if s.pc p = .idle then (s.bwrite p i).toOption else none
  | .brelse p i => if s.pc p = .idle then (s.brelse p i).toOption else none
  | .unref p =>
    match s.pc p with
    | .released i => some ((s.unref i).goto p .idle)
    | _ => none
  | .log l => some { s with log := l }

end Xv6.BufferCache
