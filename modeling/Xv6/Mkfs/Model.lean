import Xv6.FileSystem.Images

/-!
# The file system builder

`mkfs.c` writes an image with a root directory and a list of host files in it. Its state is the
image file and the two counters `freeinode` and `freeblock`: inodes and blocks are handed out
in order, and the bitmap is written at the end.

A host file is what the run sees of it: the name on the command line, and the results of the
calls to `read` up to the first that returns nothing, or no result at all where `open` fails.
The calls that write the image do not fail. A call that reads it fails past its end.
-/

namespace Xv6.Mkfs

open ByteBlock Routine FileSystem

abbrev nInodes : ℕ := 200

abbrev nbitmap : ℕ := fsSize / (bSize * 8) + 1

abbrev ninodeblocks : ℕ := nInodes / ipb + 1

abbrev nmeta : ℕ := 2 + nlog + ninodeblocks + nbitmap

abbrev nblocks : ℕ := fsSize - nmeta

abbrev logstart : ℕ := 2

def sb : Superblock where
  size := fsSize
  nblocks := nblocks
  ninodes := nInodes
  nlog := nlog
  logstart := logstart
  inodestart := 2 + nlog
  bmapstart := 2 + nlog + ninodeblocks
  log_after_super := by decide
  inodes_after_log := by decide
  bitmap_after_inodes := by decide
  data_after_bitmap := by decide
  nblocks_le := by decide
  size_lt := by decide

def zeroes : Block := fun _ => 0

def superBlock : Block :=
  let words := [sb.size, sb.nblocks, sb.ninodes, sb.nlog, sb.logstart, sb.inodestart, sb.bmapstart]
  setU32s zeroes 0 fun j : Fin 7 => BitVec.ofNat 32 (words.getD j 0)

/-- The image file, its length in sectors, and the counters. -/
structure State where
  sector : ℕ → Block
  sectors : ℕ
  freeinode : ℕ
  freeblock : ℕ

/-- How `mkfs` ends early: `exit(1)`, or an assertion. -/
inductive Exit where
  | failed
  | aborted
  deriving DecidableEq, Repr

abbrev MkfsM := Routine Exit State

def State.write (m : State) (sec : ℕ) (buf : Block) : State :=
  { m with sector := Function.update m.sector sec buf, sectors := max m.sectors (sec + 1) }

def State.take (m : State) : State := { m with freeblock := m.freeblock + 1 }

def wsect (sec : ℕ) (buf : Block) : MkfsM Unit := update fun m => m.write sec buf

def rsect (sec : ℕ) : MkfsM Block := do
  let sectors ← look fun m => m.sectors
  if sec < sectors then look fun m => m.sector sec else stop .failed

def winode (inum : ℕ) (din : Dinode) : MkfsM Unit := do
  let bn := sb.iblock inum
  let buf ← rsect bn
  wsect bn (setDinode buf (inum % ipb) din)

def rinode (inum : ℕ) : MkfsM Dinode := do
  let buf ← rsect (sb.iblock inum)
  pure (dinodeAt buf (inum % ipb))

def newInode (type : BitVec 16) : Dinode := { Dinode.fresh type with nlink := 1 }

def ialloc (type : BitVec 16) : MkfsM ℕ := do
  let inum ← look fun m => m.freeinode
  update fun m => { m with freeinode := m.freeinode + 1 }
  winode inum (newInode type)
  pure inum

def bitmap (used : ℕ) : Block := (List.range used).foldl setBit zeroes

def balloc (used : ℕ) : MkfsM Unit :=
  if used < bSize * 8 then wsect sb.bmapstart (bitmap used) else stop .aborted

def nextBlock : MkfsM ℕ := do
  let b ← look fun m => m.freeblock
  update State.take
  pure b

/-- `if(xint(din.addrs[k]) == 0) din.addrs[k] = xint(freeblock++);`. -/
def addrOrNext (din : Dinode) (k : Fin (nDirect + 1)) : MkfsM Dinode :=
  if din.addrs k = 0 then do
    let b ← nextBlock
    pure (din.setAddr k (BitVec.ofNat 32 b))
  else
    pure din

/-- The same for a word of the indirect block, which is read and written back; the result is
the word. -/
def entryOrNext (addr j : ℕ) : MkfsM ℕ := do
  let indirect ← rsect addr
  if wordAt indirect j = 0 then
    let b ← nextBlock
    let indirect := setWord indirect j (BitVec.ofNat 32 b)
    wsect addr indirect
    pure (wordAt indirect j).toNat
  else
    pure (wordAt indirect j).toNat

/-- The part of a round of `iappend` that finds block `fbn` of the inode. -/
def blockFor (din : Dinode) (fbn : ℕ) : MkfsM (Dinode × ℕ) :=
  if fbn < nDirect then do
    let din ← addrOrNext din (slotOf fbn)
    pure (din, (din.addrs (slotOf fbn)).toNat)
  else do
    let din ← addrOrNext din indirectSlot
    let x ← entryOrNext (din.addrs indirectSlot).toNat (fbn - nDirect)
    pure (din, x)

/-- The loop of `iappend` over the bytes `p`; it returns the inode and the offset reached. -/
def iappendLoop : ℕ → Dinode → ℕ → List (BitVec 8) → MkfsM (Dinode × ℕ)
  | 0, din, off, _ => pure (din, off)
  | rounds + 1, din, off, p =>
    if 0 < p.length then
      let fbn := off / bSize
      if fbn < maxFile then do
        let (din, x) ← blockFor din fbn
        let n1 := min p.length ((fbn + 1) * bSize - off)
        let buf ← rsect x
        wsect x (store buf (off - fbn * bSize) n1 fun i => p.getD i 0)
        iappendLoop rounds din (off + n1) (p.drop n1)
      else
        stop .aborted
    else
      pure (din, off)

/-- `iappend`: a round of the loop takes at least one byte. -/
def iappend (inum : ℕ) (p : List (BitVec 8)) : MkfsM Unit := do
  let din ← rinode inum
  let (din, off) ← iappendLoop p.length din din.size.toNat p
  winode inum { din with size := BitVec.ofNat 32 off }

/-- What a call to `read` with a buffer of one block returns, when it returns something. -/
structure Chunk where
  bytes : List (BitVec 8)
  pos : 0 < bytes.length
  le : bytes.length ≤ bSize

/-- A file argument: a C string, and the chunks that are read from the file if it opens. -/
structure File where
  argv : List (BitVec 8)
  noNul : ∀ c ∈ argv, c ≠ 0
  chunks : Option (List Chunk)

/-- The name in the directory: a leading `_` is skipped. -/
def File.name (f : File) : List (BitVec 8) :=
  match f.argv with
  | [] => []
  | c :: rest => if c = 0x5f then rest else c :: rest

/-- The bytes of a directory entry for the C string `name`. The entry is zeroed first, so that
`strcpy` of a short name and `strncpy` leave the same. -/
def dirent (inum : ℕ) (name : List (BitVec 8)) : List (BitVec 8) :=
  let de : Dirent := ⟨BitVec.ofNat 16 inum, strncpy fun i => name.getD i 0⟩
  (List.range direntSize).map de.encode

def addFile (f : File) : MkfsM Unit :=
  if 0x2f ∈ f.argv then
    stop .aborted
  else
    match f.chunks with
    | none => stop .failed
    | some chunks => do
        let inum ← ialloc tFile
        iappend rootIno (dirent inum f.name)
        forEach (fun c => iappend inum c.bytes) chunks

def dot : List (BitVec 8) := [0x2e]

def dotdot : List (BitVec 8) := [0x2e, 0x2e]

/-- The loop that zeroes the image. It is irreducible, so that its rounds are not run where it is
only mentioned. -/
@[irreducible] def zeroImage (n : ℕ) : MkfsM Unit := forRange n fun i => wsect i zeroes

/-- `main` with the image open; it returns where the source exits with status 0. -/
def main (files : List File) : MkfsM Unit := do
  update fun m => { m with freeblock := nmeta }
  zeroImage fsSize
  wsect 1 superBlock
  let rootino ← ialloc tDir
  if rootino = rootIno then
    iappend rootino (dirent rootino dot)
    iappend rootino (dirent rootino dotdot)
    forEach addFile files
    -- the size of the root directory is rounded up
    let din ← rinode rootino
    let off := (din.size.toNat / bSize + 1) * bSize
    winode rootino { din with size := BitVec.ofNat 32 off }
    let used ← look fun m => m.freeblock
    balloc used
  else
    stop .aborted

def start : State := ⟨fun _ => zeroes, 0, 1, 0⟩

section Rules

variable {m : State} {Q : Block → State → Prop} {E : Exit → State → Prop}

theorem wp_rsect (sec : ℕ) :
    wp (rsect sec) Q E m ↔
      (sec < m.sectors → Q (m.sector sec) m) ∧ (¬ sec < m.sectors → E .failed m) := by
  simp only [rsect, wp_bind, wp_look, wp_ite, wp_stop]

end Rules

end Xv6.Mkfs
