import Xv6.Storage.Buffer

/-!
# The on-disk log

The commit and recovery routines of `log.c`. The header block of the log holds
the count `n` as its first 32-bit word and the home block numbers after it.
`encodeHead` is the effect of `write_head` on the header block's data and
`decodeHead` that of `read_head` on the header in memory: the words past the
first `n` block numbers keep what was there before.
-/

namespace Xv6

open ByteBlock Routine

def LogHeader.count (h : LogHeader) : ℕ := h.n.toInt.toNat

def LogHeader.blockAt (h : LogHeader) (i : ℕ) : BitVec 32 :=
  if hi : i < logSize then h.block ⟨i, hi⟩ else 0

def LogHeader.home (h : LogHeader) (i : ℕ) : StorageM ℕ :=
  if i < logSize then pure (h.blockAt i).toNat else stop .headerOverrun

def wordAt (d : Block) (i : ℕ) : BitVec 32 := u32At d (4 * i)

def setWord (d : Block) (i : ℕ) (w : BitVec 32) : Block := setU32 d (4 * i) w

def encodeHead (h : LogHeader) (d : Block) : Block :=
  (List.range h.count).foldl (fun d i => setWord d (i + 1) (h.blockAt i)) (setWord d 0 h.n)

def decodeHead (d : Block) (old : LogHeader) : LogHeader where
  n := wordAt d 0
  block i := if i.val < (wordAt d 0).toInt.toNat then wordAt d (i.val + 1) else old.block i

/-- One round of `install_trans`: copy a log block to its home. -/
def installRound (log : Log) (tail : ℕ) : StorageM Unit := do
  let lbuf ← bread log.dev (log.start + tail + 1)
  let home ← log.lh.home tail
  let dbuf ← bread log.dev home
  let s ← look id
  setData dbuf (s.buf lbuf).data
  bwrite dbuf
  brelse lbuf
  brelse dbuf

def installTrans : StorageM Unit := do
  let log ← look Storage.log
  forRange log.lh.count (installRound log)

def readHead : StorageM Unit := do
  let log ← look Storage.log
  let b ← bread log.dev log.start
  let s ← look id
  let lh := decodeHead (s.buf b).data log.lh
  if logSize < lh.count then
    stop .headerOverrun
  else
    update fun s => { s with log := { s.log with lh := lh } }
    brelse b

def writeHead : StorageM Unit := do
  let log ← look Storage.log
  let b ← bread log.dev log.start
  if logSize < log.lh.count then
    stop .headerOverrun
  else
    let s ← look id
    setData b (encodeHead log.lh (s.buf b).data)
    bwrite b
    brelse b

def clearHead : StorageM Unit :=
  update fun s => { s with log := { s.log with lh := { s.log.lh with n := 0 } } }

def recoverFromLog : StorageM Unit := do
  readHead
  installTrans
  clearHead
  writeHead

/-- One round of `write_log`: copy a cached block to the log. -/
def writeRound (log : Log) (tail : ℕ) : StorageM Unit := do
  let dst ← bread log.dev (log.start + tail + 1)
  let home ← log.lh.home tail
  let src ← bread log.dev home
  let s ← look id
  setData dst (s.buf src).data
  bwrite dst
  brelse src
  brelse dst

def writeLog : StorageM Unit := do
  let log ← look Storage.log
  forRange log.lh.count (writeRound log)

def commit : StorageM Unit := do
  let log ← look Storage.log
  if 0 < log.lh.n.toInt then
    writeLog
    writeHead
    installTrans
    clearHead
    writeHead
  else
    pure ()

end Xv6
