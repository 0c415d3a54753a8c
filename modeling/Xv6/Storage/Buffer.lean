import Xv6.Library.ByteBlock
import Xv6.Library.RedoLog
import Xv6.Library.Routine
import Xv6.Param

/-!
# The buffer cache and the disk

The cache of `bio.c` over the synchronous disk of `memide.c`. The buffers are
an array, and `order` is the list threaded through them from `bcache.head.next`
on, most recently used first. The two flag bits of a buffer are two booleans.

The disk is not stored: a `Storage` keeps the `image` the machine was started
on and the list of block `writes` issued since, oldest first, and `disk` is the
result of applying them. The block a crash leaves behind at any moment is then
a function of the state reached.
-/

namespace Xv6

open RedoLog

abbrev Block := ByteBlock bSize

/-- `struct buf`. The flags are `B_VALID` and `B_DIRTY`, and `locked` is the
buffer's sleep lock. -/
structure Buf where
  valid : Bool
  dirty : Bool
  dev : ℕ
  blockno : ℕ
  locked : Bool
  refcnt : ℕ
  data : Block

/-- `bcache`: the buffers and the order in which the list links them. -/
structure BCache where
  buf : Fin nBuf → Buf
  order : List (Fin nBuf)

structure LogHeader where
  n : BitVec 32
  block : Fin logSize → BitVec 32

structure Log where
  start : ℕ
  size : ℕ
  dev : ℕ
  lh : LogHeader

/-- The disk, the buffer cache and the log of one running kernel. -/
structure Storage where
  image : ℕ → Block
  writes : List (ℕ × Block)
  diskSize : ℕ
  cache : BCache
  log : Log

/-- Why a routine of this layer does not return: the panics of `bio.c` and
`memide.c`, a sleep lock held by someone else, and an index past the end of
`log.lh.block`. -/
inductive Halt where
  | noBuffers
  | bwriteNotHeld
  | brelseNotHeld
  | bufNotLocked
  | nothingToDo
  | notDisk1
  | outOfRange
  | sleeping
  | headerOverrun
  deriving DecidableEq, Repr

namespace Storage

/-- The disk as the writes issued so far have left it. -/
def disk (s : Storage) : ℕ → Block := applyWrites s.image s.writes

/-- The disk as it is when only the first `k` writes have reached it. -/
def diskAfter (s : Storage) (k : ℕ) : ℕ → Block := applyWrites s.image (s.writes.take k)

def buf (s : Storage) (i : Fin nBuf) : Buf := s.cache.buf i

def setBuf (s : Storage) (i : Fin nBuf) (f : Buf → Buf) : Storage :=
  { s with cache := { s.cache with buf := Function.update s.cache.buf i (f (s.cache.buf i)) } }

def issue (s : Storage) (b : ℕ) (d : Block) : Storage :=
  { s with writes := s.writes ++ [(b, d)] }

def toFront (s : Storage) (i : Fin nBuf) : Storage :=
  { s with cache := { s.cache with order := i :: s.cache.order.erase i } }

variable (s : Storage)
include s

@[simp] theorem setBuf_diskSize (i : Fin nBuf) (f : Buf → Buf) :
    (s.setBuf i f).diskSize = s.diskSize := rfl

@[simp] theorem setBuf_log (i : Fin nBuf) (f : Buf → Buf) : (s.setBuf i f).log = s.log := rfl

@[simp] theorem setBuf_disk (i : Fin nBuf) (f : Buf → Buf) : (s.setBuf i f).disk = s.disk := rfl

theorem setBuf_buf (i j : Fin nBuf) (f : Buf → Buf) :
    (s.setBuf i f).buf j = if j = i then f (s.buf i) else s.buf j := by
  simp only [setBuf, buf, Function.update_apply]

@[simp] theorem setBuf_buf_self (i : Fin nBuf) (f : Buf → Buf) :
    (s.setBuf i f).buf i = f (s.buf i) := by
  simp [setBuf_buf]

theorem setBuf_buf_of_ne {i j : Fin nBuf} (f : Buf → Buf) (h : j ≠ i) :
    (s.setBuf i f).buf j = s.buf j := by
  simp [setBuf_buf, h]

theorem setBuf_setBuf (i : Fin nBuf) (f g : Buf → Buf) :
    (s.setBuf i f).setBuf i g = s.setBuf i fun _ => g (f (s.buf i)) := by
  simp [setBuf, buf]

@[simp] theorem issue_buf (b : ℕ) (d : Block) (i : Fin nBuf) : (s.issue b d).buf i = s.buf i :=
  rfl

@[simp] theorem issue_disk (b : ℕ) (d : Block) :
    (s.issue b d).disk = Function.update s.disk b d := by
  simp [disk, issue, applyWrites_append]

end Storage

abbrev StorageM := Routine Halt Storage

def binit : BCache where
  buf _ :=
    { valid := false, dirty := false, dev := 0, blockno := 0, locked := false,
      refcnt := 0, data := fun _ => 0 }
  order := (List.finRange nBuf).reverse

def acquiresleep (i : Fin nBuf) : StorageM Unit := do
  let s ← Routine.look id
  if (s.buf i).locked then
    Routine.stop .sleeping
  else
    Routine.update fun s => s.setBuf i fun b => { b with locked := true }

def releasesleep (i : Fin nBuf) : StorageM Unit :=
  Routine.update fun s => s.setBuf i fun b => { b with locked := false }

/-- `iderw` of `memide.c`: write a dirty buffer, or read an invalid one. -/
def iderw (i : Fin nBuf) : StorageM Unit := do
  let s ← Routine.look id
  let b := s.buf i
  if b.locked = false then
    Routine.stop .bufNotLocked
  else if b.valid = true ∧ b.dirty = false then
    Routine.stop .nothingToDo
  else if b.dev ≠ rootDev then
    Routine.stop .notDisk1
  else if s.diskSize ≤ b.blockno then
    Routine.stop .outOfRange
  else if b.dirty then
    Routine.update fun s =>
      (s.issue b.blockno b.data).setBuf i fun b => { b with dirty := false, valid := true }
  else
    Routine.update fun s =>
      s.setBuf i fun b => { b with data := s.disk b.blockno, valid := true }

def BCache.holds (c : BCache) (dev blockno : ℕ) (i : Fin nBuf) : Bool :=
  (c.buf i).dev == dev && (c.buf i).blockno == blockno

/-- May this buffer be recycled? A dirty one may not, even with no reference:
`log.c` has modified it but not yet committed it. -/
def BCache.unused (c : BCache) (i : Fin nBuf) : Bool :=
  (c.buf i).refcnt == 0 && !(c.buf i).dirty

/-- `bget`: the cached buffer if there is one, else the least recently used
buffer that may be recycled; locked in either case. -/
def bget (dev blockno : ℕ) : StorageM (Fin nBuf) := do
  let s ← Routine.look id
  match s.cache.order.find? (s.cache.holds dev blockno) with
  | some i =>
    Routine.update fun s => s.setBuf i fun b => { b with refcnt := b.refcnt + 1 }
    acquiresleep i
    pure i
  | none =>
    match s.cache.order.reverse.find? s.cache.unused with
    | some i =>
      Routine.update fun s => s.setBuf i fun b =>
        { b with dev := dev, blockno := blockno, valid := false, dirty := false,
                 refcnt := 1 }
      acquiresleep i
      pure i
    | none => Routine.stop .noBuffers

/-- `bread`: a locked buffer with the contents of the block. -/
def bread (dev blockno : ℕ) : StorageM (Fin nBuf) := do
  let i ← bget dev blockno
  let s ← Routine.look id
  if (s.buf i).valid = false then
    iderw i
    pure i
  else
    pure i

def bwrite (i : Fin nBuf) : StorageM Unit := do
  let s ← Routine.look id
  if (s.buf i).locked = false then
    Routine.stop .bwriteNotHeld
  else
    Routine.update fun s => s.setBuf i fun b => { b with dirty := true }
    iderw i

/-- `brelse`: release a locked buffer, and move it to the front of the list
when nobody waits for it. -/
def brelse (i : Fin nBuf) : StorageM Unit := do
  let s ← Routine.look id
  if (s.buf i).locked = false then
    Routine.stop .brelseNotHeld
  else
    releasesleep i
    Routine.update fun s => s.setBuf i fun b => { b with refcnt := b.refcnt - 1 }
    let s ← Routine.look id
    if (s.buf i).refcnt = 0 then
      Routine.update fun s => s.toFront i
    else
      pure ()

def setData (i : Fin nBuf) (d : Block) : StorageM Unit :=
  Routine.update fun s => s.setBuf i fun b => { b with data := d }

end Xv6
