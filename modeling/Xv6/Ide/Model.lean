import Xv6.BufferCache.Model
import Xv6.Library.LinkedQueue

/-!
# The interrupt-driven disk

`iderw`, `idestart` and `ideintr` of `ide.c` with any number of processes. Each critical
section of `idelock` is one event. A process that calls `iderw` appends its buffer to
`idequeue` and sleeps; the handler takes the first buffer off, wakes up the processes
that sleep on it, and starts the next request; a process that was woken up tests the
flags of its buffer again. The queue is what it is in the source, the link `idequeue`,
which is that of `none`, and the links `qnext` of the buffers.

The drive is outside of the source. It has two disks. A command that it is given makes it
busy; it moves the data between its sector buffer and the disk at some time after, and
then raises one interrupt. There are no device errors. Whatever the rest of the kernel
does to a buffer that is not in `iderw` is the event `edit`.

The lists `requested`, `started` and `completed` are not in the source. A routine that
panics stops the kernel: the event that leads there is not enabled.
-/

namespace Xv6.Ide

open Function

abbrev Buf (P : Type*) := BufferCache.Buf P

abbrev sectorSize : ℕ := 512

/-- What the drive is told: the disk, the sector, and the data of a write. -/
structure Command where
  drive : ℕ
  lba : ℕ
  data : Option Block

/-- The drive: `busy` until it has moved the data, and `done` with the contents of its
sector buffer until the interrupt is handled. -/
inductive Drive where
  | idle
  | busy (c : Command)
  | done (c : Command) (sector : Block)

inductive Pc where
  | out
  | asleep (i : Fin nBuf)
  /-- In `sleep`, woken up and about to take `idelock`. -/
  | woken (i : Fin nBuf)
  deriving DecidableEq

def Pc.waits : Pc → Option (Fin nBuf)
  | .out => none
  | .asleep i | .woken i => some i

@[simp] theorem Pc.waits_out : Pc.waits .out = none := rfl

@[simp] theorem Pc.waits_asleep (i : Fin nBuf) : Pc.waits (.asleep i) = some i := rfl

@[simp] theorem Pc.waits_woken (i : Fin nBuf) : Pc.waits (.woken i) = some i := rfl

structure State (P : Type*) where
  buf : Fin nBuf → Buf P
  /-- `idequeue` and `qnext`. -/
  next : Option (Fin nBuf) → Option (Fin nBuf)
  havedisk1 : Bool
  drive : Drive
  disk : ℕ → ℕ → Block
  pc : P → Pc
  requested : List (Fin nBuf)
  started : List (Fin nBuf)
  completed : List (Fin nBuf)

inductive Event (P : Type*) where
  /-- Anything that is done to a buffer outside of `iderw`. -/
  | edit (i : Fin nBuf) (b : Buf P)
  /-- A process calls `iderw`, up to its first `sleep`. -/
  | iderw (p : P) (i : Fin nBuf)
  | transfer
  | ideintr
  | resume (p : P)
  | kill (p : P)

def ideinit {P : Type*} (buf : Fin nBuf → Buf P) (disk : ℕ → ℕ → Block) (havedisk1 : Bool) :
    State P where
  buf := buf
  next _ := none
  havedisk1 := havedisk1
  drive := .idle
  disk := disk
  pc _ := .out
  requested := []
  started := []
  completed := []

def Synced {P : Type*} (b : Buf P) : Prop := b.valid = true ∧ b.dirty = false

instance decidableSynced {P : Type*} (b : Buf P) : Decidable (Synced b) :=
  inferInstanceAs (Decidable (_ ∧ _))

/-- The sector number in the registers `0x1f3` to `0x1f6`, a byte each and four bits of
the last one. -/
def lba (sector : ℕ) : ℕ :=
  sector % 2 ^ 8 + 2 ^ 8 * (sector / 2 ^ 8 % 2 ^ 8) + 2 ^ 16 * (sector / 2 ^ 16 % 2 ^ 8) +
    2 ^ 24 * (sector / 2 ^ 24 % 2 ^ 4)

theorem lba_eq {sector : ℕ} (h : sector < 2 ^ 28) : lba sector = sector := by
  rw [lba]
  omega

def command {P : Type*} (b : Buf P) : Command where
  drive := b.dev % 2
  lba := lba (b.blockno * (bSize / sectorSize))
  data := if b.dirty then some b.data else none

def Command.apply (c : Command) (disk : ℕ → ℕ → Block) : ℕ → ℕ → Block :=
  match c.data with
  | none => disk
  | some d => update disk c.drive (update (disk c.drive) c.lba d)

namespace State

variable {P : Type*}

def idestart (s : State P) (i : Fin nBuf) : Option (State P) :=
  if fsSize ≤ (s.buf i).blockno then
    none
  else
    some { s with drive := .busy (command (s.buf i)), started := s.started ++ [i] }

def wakeup (s : State P) (i : Fin nBuf) : State P :=
  { s with pc := fun q => if s.pc q = .asleep i then .woken i else s.pc q }

def transfer (s : State P) : Option (State P) :=
  match s.drive with
  | .busy c =>
    let disk := c.apply s.disk
    some { s with disk := disk, drive := .done c (disk c.drive c.lba) }
  | _ => none

/-- The buffer that the handler has taken off the queue. The data of a read come from the
sector buffer of the drive. -/
def finish (b : Buf P) (sector : Block) : Buf P :=
  { b with data := if b.dirty then b.data else sector, valid := true, dirty := false }

def ideintr (s : State P) (sector : Block) : Option (State P) :=
  match s.next none with
  | none => some { s with drive := .idle }
  | some i =>
    let s := { s with
      next := LinkedQueue.dequeue s.next i
      buf := update s.buf i (finish (s.buf i) sector)
      drive := .idle
      completed := s.completed ++ [i] }
    match s.next none with
    | none => some (s.wakeup i)
    | some j => (s.wakeup i).idestart j

variable [DecidableEq P]

def goto (s : State P) (p : P) (c : Pc) : State P :=
  { s with pc := update s.pc p c }

/-- The loop at the end of `iderw`, up to its next `sleep`. -/
def wait (s : State P) (p : P) (i : Fin nBuf) : State P :=
  s.goto p (if Synced (s.buf i) then .out else .asleep i)

/-- `iderw`, up to its first `sleep`. The walk to the end of the queue ends within as many
steps as there are buffers, or never. -/
def iderw (s : State P) (p : P) (i : Fin nBuf) : Option (State P) :=
  if (s.buf i).lock ≠ some p then
    none
  else if Synced (s.buf i) then
    none
  else if (s.buf i).dev ≠ 0 ∧ s.havedisk1 = false then
    none
  else
    (LinkedQueue.enqueue (nBuf + 1) s.next i).bind fun next =>
      let s := { s with next := next, requested := s.requested ++ [i] }
      (if s.next none = some i then s.idestart i else some s).map fun s => s.wait p i

end State

variable {P : Type*} [DecidableEq P]

def editable (buf : Fin nBuf → Buf P) (pc : P → Pc) (i : Fin nBuf) : Bool :=
  (buf i).lock.all fun p => (pc p).waits ≠ some i

def step (s : State P) : Event P → Option (State P)
  | .edit i b =>
    if editable s.buf s.pc i then some { s with buf := update s.buf i b } else none
  | .iderw p i => if s.pc p = .out then s.iderw p i else none
  | .transfer => s.transfer
  | .ideintr =>
    match s.drive with
    | .done _ sector => s.ideintr sector
    | _ => none
  | .resume p =>
    match s.pc p with
    | .woken i => some (s.wait p i)
    | _ => none
  | .kill p =>
    match s.pc p with
    | .asleep i => some (s.goto p (.woken i))
    | _ => some s

/-! The same calls over the disk of `memide.c`. A request does nothing until it completes.
Then `iderw` of `memide.c` runs for the process that holds the buffer, and it alone
changes the buffer and the disk. A process returns when its request has completed. -/

/-- The buffers and the disk, and the requests that have not completed. -/
structure Sync (P : Type*) where
  cache : BufferCache.State P
  pending : List (Fin nBuf)
  pc : P → Pc

namespace Sync

def step (a : Sync P) : Event P → Option (Sync P)
  | .edit i b =>
    if editable a.cache.buf a.pc i then
      some { a with cache := { a.cache with buf := update a.cache.buf i b } }
    else
      none
  | .iderw p i =>
    if a.pc p = .out then
      some { a with
        pending := a.pending ++ [i]
        pc := update a.pc p (.asleep i) }
    else
      none
  | .transfer => some a
  | .ideintr =>
    match a.pending with
    | [] => none
    | i :: pending =>
      (a.cache.buf i).lock.bind fun p =>
        (a.cache.iderw p i).toOption.map fun cache =>
          { cache := cache
            pending := pending
            pc := fun q => if a.pc q = .asleep i then .woken i else a.pc q }
  | .resume p =>
    match a.pc p with
    | .woken i =>
      some { a with
        pc := update a.pc p (if i ∈ a.pending then .asleep i else .out) }
    | _ => none
  | .kill p =>
    match a.pc p with
    | .asleep i => some { a with pc := update a.pc p (.woken i) }
    | _ => some a

end Sync

end Xv6.Ide
