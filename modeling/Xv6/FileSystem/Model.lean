import Xv6.FileSystem.Layout

/-!
# Blocks, inodes and directories

The routines of `fs.c` from the block allocator up to `dirlink`. A `Volume` is
what they share: the disk blocks as `bread` and `log_write` show them, and the
inode cache. `balloc` and `ialloc` search in the order of the source, and a loop
over the bytes of a file takes one round for each block it touches.

There is one device, the one whose superblock `sb` is read at boot. Every panic
of these routines is a reason to stop. At `sleeping` the routine waits for a sleep
lock: another process releases it, or nobody does if the caller itself holds it.
-/

namespace Xv6.FileSystem

open ByteBlock Routine Function

/-- `struct inode`: the copy of the on-disk inode and what the cache adds to
it. `locked` is the inode's sleep lock. -/
structure Inode extends Dinode where
  inum : ℕ
  ref : ℕ
  locked : Bool
  valid : Bool

/-- The disk blocks and `icache.inode`. -/
structure Volume where
  block : ℕ → Block
  inode : Fin nInode → Inode

/-- A slot of the inode cache, the `struct inode *` of the source. -/
abbrev Slot := Fin nInode

inductive Panic where
  | outOfBlocks
  | freeingFreeBlock
  | noFreeInode
  | icacheFull
  | ilock
  | noType
  | iunlock
  | bmapOutOfRange
  | dirlookupNotDir
  | dirlookupRead
  | dirlinkRead
  | dirlink
  | sleeping
  deriving DecidableEq, Repr

/-- `devsw`: the functions of a device, by its major number. -/
structure Devices where
  read : ℕ → Option (ℕ → ℤ × List (BitVec 8))
  write : ℕ → Option ((ℕ → BitVec 8) → ℕ → ℤ)

abbrev VolumeM := Routine Panic Volume

namespace Volume

def modifyBlock (v : Volume) (b : ℕ) (f : Block → Block) : Volume :=
  { v with block := update v.block b (f (v.block b)) }

def modifyInode (v : Volume) (ip : Slot) (f : Inode → Inode) : Volume :=
  { v with inode := update v.inode ip (f (v.inode ip)) }

@[simp] theorem modifyBlock_inode (v : Volume) (b : ℕ) (f : Block → Block) :
    (v.modifyBlock b f).inode = v.inode := rfl

@[simp] theorem modifyInode_block (v : Volume) (ip : Slot) (f : Inode → Inode) :
    (v.modifyInode ip f).block = v.block := rfl

@[simp] theorem modifyBlock_block_self (v : Volume) (b : ℕ) (f : Block → Block) :
    (v.modifyBlock b f).block b = f (v.block b) :=
  update_self ..

theorem modifyBlock_block_of_ne (v : Volume) {b c : ℕ} (f : Block → Block) (h : c ≠ b) :
    (v.modifyBlock b f).block c = v.block c :=
  update_of_ne h ..

@[simp] theorem modifyInode_inode_self (v : Volume) (ip : Slot) (f : Inode → Inode) :
    (v.modifyInode ip f).inode ip = f (v.inode ip) :=
  update_self ..

theorem modifyInode_inode_of_ne (v : Volume) {ip iq : Slot} (f : Inode → Inode) (h : iq ≠ ip) :
    (v.modifyInode ip f).inode iq = v.inode iq :=
  update_of_ne h ..

end Volume

def slotOf (i : ℕ) : Fin (nDirect + 1) := Fin.ofNat (nDirect + 1) i

def Inode.setAddr (x : Inode) (i : Fin (nDirect + 1)) (w : BitVec 32) : Inode :=
  { x with addrs := update x.addrs i w }

section Routines

variable (sb : Superblock)

def bzero (b : ℕ) : VolumeM Unit :=
  update fun v => v.modifyBlock b fun _ => fun _ => 0

def freeBit (d : Block) (n : ℕ) : Option ℕ :=
  (List.range n).find? fun bi => !bitAt d bi

/-- The search of `balloc` from block `b` on, over `n` blocks of the bitmap. -/
def ballocFrom : ℕ → ℕ → VolumeM ℕ
  | _, 0 => stop .outOfBlocks
  | b, n + 1 => do
      let d ← look fun v => v.block (sb.bblock b)
      match freeBit d (min bpb (sb.size - b)) with
      | some bi =>
        update fun v => v.modifyBlock (sb.bblock b) fun d => setBit d bi
        bzero (b + bi)
        pure (b + bi)
      | none => ballocFrom (b + bpb) n

def balloc : VolumeM ℕ := ballocFrom sb 0 ((sb.size + bpb - 1) / bpb)

def bfree (b : ℕ) : VolumeM Unit := do
  let d ← look fun v => v.block (sb.bblock b)
  if bitAt d (b % bpb) = false then
    stop .freeingFreeBlock
  else
    update fun v => v.modifyBlock (sb.bblock b) fun d => clearBit d (b % bpb)

/-- `iget`: find the inode with number `inum` and return its slot in the cache,
with one more reference to it. -/
def iget (inum : ℕ) : VolumeM Slot := do
  let v ← look id
  match (List.finRange nInode).find? fun ip =>
      decide (0 < (v.inode ip).ref ∧ (v.inode ip).inum = inum) with
  | some ip =>
    update fun v => v.modifyInode ip fun x => { x with ref := x.ref + 1 }
    pure ip
  | none =>
    match (List.finRange nInode).find? fun ip => decide ((v.inode ip).ref = 0) with
    | some ip =>
      update fun v => v.modifyInode ip fun x =>
        { x with inum := inum, ref := 1, valid := false }
      pure ip
    | none => stop .icacheFull

/-- The search of `ialloc` from inode `inum` on, over `n` inodes. -/
def iallocFrom (type : BitVec 16) : ℕ → ℕ → VolumeM Slot
  | _, 0 => stop .noFreeInode
  | inum, n + 1 => do
      let d ← look fun v => v.block (sb.iblock inum)
      if (dinodeAt d (inum % ipb)).type = 0 then
        update fun v => v.modifyBlock (sb.iblock inum) fun d => newDinode d (inum % ipb) type
        iget inum
      else
        iallocFrom type (inum + 1) n

def ialloc (type : BitVec 16) : VolumeM Slot := iallocFrom sb type 1 (sb.ninodes - 1)

def iupdate (ip : Slot) : VolumeM Unit := do
  let x ← look fun v => v.inode ip
  update fun v => v.modifyBlock (sb.iblock x.inum) fun d =>
    setDinode d (x.inum % ipb) x.toDinode

/-- What `create`, `sys_link` and `sys_unlink` do to a locked inode: assign its
device numbers and its link count, and `iupdate` it. -/
def setLinks (ip : Slot) (major minor nlink : BitVec 16) : VolumeM Unit := do
  update fun v => v.modifyInode ip fun x =>
    { x with major := major, minor := minor, nlink := nlink }
  iupdate sb ip

def idup (ip : Slot) : VolumeM Slot := do
  update fun v => v.modifyInode ip fun x => { x with ref := x.ref + 1 }
  pure ip

def acquiresleep (ip : Slot) : VolumeM Unit := do
  let x ← look fun v => v.inode ip
  if x.locked then
    stop .sleeping
  else
    update fun v => v.modifyInode ip fun x => { x with locked := true }

def releasesleep (ip : Slot) : VolumeM Unit :=
  update fun v => v.modifyInode ip fun x => { x with locked := false }

/-- The part of `ilock` that reads the inode from disk. -/
def iload (ip : Slot) : VolumeM Unit := do
  let inum ← look fun v => (v.inode ip).inum
  let dip ← look fun v => dinodeAt (v.block (sb.iblock inum)) (inum % ipb)
  update fun v => v.modifyInode ip fun x => { x with toDinode := dip, valid := true }
  if dip.type = 0 then stop .noType else pure ()

def ilock (ip : Slot) : VolumeM Unit := do
  let x ← look fun v => v.inode ip
  if x.ref < 1 then
    stop .ilock
  else
    acquiresleep ip
    if x.valid then pure () else iload sb ip

def iunlock (ip : Slot) : VolumeM Unit := do
  let x ← look fun v => v.inode ip
  if x.locked = false ∨ x.ref < 1 then stop .iunlock else releasesleep ip

/-- One round of the first loop of `itrunc`: free a direct block. -/
def truncDirect (ip : Slot) (i : ℕ) : VolumeM Unit := do
  let addr ← look fun v => (v.inode ip).addrs (slotOf i)
  if addr = 0 then
    pure ()
  else
    bfree sb addr.toNat
    update fun v => v.modifyInode ip fun x => x.setAddr (slotOf i) 0

/-- One round of the second loop of `itrunc`: free a block of the indirect block
`addr`. -/
def truncEntry (addr j : ℕ) : VolumeM Unit := do
  let a ← look fun v => wordAt (v.block addr) j
  if a = 0 then pure () else bfree sb a.toNat

/-- The part of `itrunc` that frees the indirect block and what it lists. -/
def truncIndirect (ip : Slot) : VolumeM Unit := do
  let addr ← look fun v => (v.inode ip).addrs indirectSlot
  if addr = 0 then
    pure ()
  else
    forRange nIndirect (truncEntry sb addr.toNat)
    bfree sb addr.toNat
    update fun v => v.modifyInode ip fun x => x.setAddr indirectSlot 0

def itrunc (ip : Slot) : VolumeM Unit := do
  forRange nDirect (truncDirect sb ip)
  truncIndirect sb ip
  update fun v => v.modifyInode ip fun x => { x with size := 0 }
  iupdate sb ip

def ifree (ip : Slot) : VolumeM Unit := do
  itrunc sb ip
  update fun v => v.modifyInode ip fun x => { x with type := 0 }
  iupdate sb ip
  update fun v => v.modifyInode ip fun x => { x with valid := false }

def dropRef (ip : Slot) : VolumeM Unit :=
  update fun v => v.modifyInode ip fun x => { x with ref := x.ref - 1 }

def iput (ip : Slot) : VolumeM Unit := do
  acquiresleep ip
  let x ← look fun v => v.inode ip
  if x.valid = true ∧ x.nlink = 0 ∧ x.ref = 1 then ifree sb ip else pure ()
  releasesleep ip
  dropRef ip

/-- The address in slot `i` of an inode, allocating a block if there is none. -/
def addrOrAlloc (ip : Slot) (i : Fin (nDirect + 1)) : VolumeM ℕ := do
  let addr ← look fun v => (v.inode ip).addrs i
  if addr = 0 then
    let b ← balloc sb
    update fun v => v.modifyInode ip fun x => x.setAddr i (BitVec.ofNat 32 b)
    pure b
  else
    pure addr.toNat

/-- Entry `j` of the indirect block `addr`, allocating a block if there is none. -/
def entryOrAlloc (addr j : ℕ) : VolumeM ℕ := do
  let a ← look fun v => wordAt (v.block addr) j
  if a = 0 then
    let b ← balloc sb
    update fun v => v.modifyBlock addr fun d => setWord d j (BitVec.ofNat 32 b)
    pure b
  else
    pure a.toNat

def bmap (ip : Slot) (bn : ℕ) : VolumeM ℕ :=
  if bn < nDirect then
    addrOrAlloc sb ip (slotOf bn)
  else if bn - nDirect < nIndirect then do
    let addr ← addrOrAlloc sb ip indirectSlot
    entryOrAlloc sb addr (bn - nDirect)
  else
    stop .bmapOutOfRange

end Routines

section Contents

variable (sb : Superblock) (devsw : Devices)

def badMajor (major : BitVec 16) : Prop := major.toInt < 0 ∨ (nDev : ℤ) ≤ major.toInt

instance (major : BitVec 16) : Decidable (badMajor major) :=
  inferInstanceAs (Decidable (_ ∨ _))

/-- The loop of `readi`: `n` bytes in all, `tot` of them read, the next one at
offset `off`. Each round reads at least one byte, so `n` rounds are enough. -/
def readLoop (ip : Slot) (n : ℕ) : ℕ → ℕ → ℕ → VolumeM (List (BitVec 8))
  | 0, _, _ => pure []
  | rounds + 1, tot, off =>
    if tot < n then do
      let b ← bmap sb ip (off / bSize)
      let m := min (n - tot) (bSize - off % bSize)
      let d ← look fun v => v.block b
      let rest ← readLoop ip n rounds (tot + m) (off + m)
      pure ((List.range m).map (fun i => byteAt d (off % bSize + i)) ++ rest)
    else
      pure []

/-- `readi`: read data from an inode. The bytes stored at `dst` are returned. -/
def readi (ip : Slot) (off n : BitVec 32) : VolumeM (ℤ × List (BitVec 8)) := do
  let x ← look fun v => v.inode ip
  if x.type = tDev then
    if badMajor x.major then
      pure (-1, [])
    else
      match devsw.read x.major.toNat with
      | none => pure (-1, [])
      | some read => pure (read n.toNat)
  else if x.size < off ∨ off + n < off then
    pure (-1, [])
  else
    let n := if x.size < off + n then x.size - off else n
    let bytes ← readLoop sb ip n.toNat n.toNat 0 off.toNat
    pure (n.toNat, bytes)

/-- The loop of `writei`; it returns the offset it ends at. -/
def writeLoop (ip : Slot) (src : ℕ → BitVec 8) (n : ℕ) : ℕ → ℕ → ℕ → VolumeM ℕ
  | 0, _, off => pure off
  | rounds + 1, tot, off =>
    if tot < n then do
      let b ← bmap sb ip (off / bSize)
      let m := min (n - tot) (bSize - off % bSize)
      update fun v => v.modifyBlock b fun d =>
        store d (off % bSize) m fun i => src (tot + i)
      writeLoop ip src n rounds (tot + m) (off + m)
    else
      pure off

/-- `writei`: write the `n` bytes at `src` to an inode. -/
def writei (ip : Slot) (src : ℕ → BitVec 8) (off n : BitVec 32) : VolumeM ℤ := do
  let x ← look fun v => v.inode ip
  if x.type = tDev then
    if badMajor x.major then
      pure (-1)
    else
      match devsw.write x.major.toNat with
      | none => pure (-1)
      | some write => pure (write src n.toNat)
  else if x.size < off ∨ off + n < off then
    pure (-1)
  else if BitVec.ofNat 32 (maxFile * bSize) < off + n then
    pure (-1)
  else
    let stop ← writeLoop sb ip src n.toNat n.toNat 0 off.toNat
    if 0 < n ∧ x.size.toNat < stop then
      update fun v => v.modifyInode ip fun x => { x with size := BitVec.ofNat 32 stop }
      iupdate sb ip
    else
      pure ()
    pure n.toNat

structure Dirent where
  inum : BitVec 16
  name : ℕ → BitVec 8

def Dirent.decode (bytes : List (BitVec 8)) : Dirent where
  inum := (bytes.getD 0 0).setWidth 16 ||| (bytes.getD 1 0).setWidth 16 <<< 8
  name i := bytes.getD (2 + i) 0

def Dirent.encode (de : Dirent) (i : ℕ) : BitVec 8 :=
  if i < 2 then de.inum.extractLsb' (8 * i) 8 else de.name (i - 2)

def strncmp (p q : ℕ → BitVec 8) : ℕ → ℕ → ℤ
  | _, 0 => 0
  | i, n + 1 =>
    if p i ≠ 0 ∧ p i = q i then strncmp p q (i + 1) n else (p i).toNat - (q i).toNat

def namecmp (s t : ℕ → BitVec 8) : ℤ := strncmp s t 0 dirSiz

def strncpy (t : ℕ → BitVec 8) (i : ℕ) : BitVec 8 :=
  if ∃ j < i, t j = 0 then 0 else t i

/-- The search of `dirlookup` from offset `off` on. -/
def dirlookupFrom (dp : Slot) (name : ℕ → BitVec 8) : ℕ → ℕ → VolumeM (Option (Slot × ℕ))
  | 0, _ => pure none
  | rounds + 1, off => do
      let size ← look fun v => (v.inode dp).size
      if off < size.toNat then
        let (r, bytes) ← readi sb devsw dp (BitVec.ofNat 32 off) (BitVec.ofNat 32 direntSize)
        if r ≠ direntSize then
          stop .dirlookupRead
        else
          let de := Dirent.decode bytes
          if de.inum = 0 then
            dirlookupFrom dp name rounds (off + direntSize)
          else if namecmp name de.name = 0 then
            let ip ← iget de.inum.toNat
            pure (some (ip, off))
          else
            dirlookupFrom dp name rounds (off + direntSize)
      else
        pure none

/-- `dirlookup`: look for a directory entry in a directory. A round moves on by
one entry, so as many rounds as there are bytes are enough. -/
def dirlookup (dp : Slot) (name : ℕ → BitVec 8) : VolumeM (Option (Slot × ℕ)) := do
  let x ← look fun v => v.inode dp
  if x.type ≠ tDir then
    stop .dirlookupNotDir
  else
    dirlookupFrom sb devsw dp name x.size.toNat 0

/-- The search of `dirlink` for an empty entry from offset `off` on. -/
def findEmpty (dp : Slot) : ℕ → ℕ → VolumeM ℕ
  | 0, off => pure off
  | rounds + 1, off => do
      let size ← look fun v => (v.inode dp).size
      if off < size.toNat then
        let (r, bytes) ← readi sb devsw dp (BitVec.ofNat 32 off) (BitVec.ofNat 32 direntSize)
        if r ≠ direntSize then
          stop .dirlinkRead
        else if (Dirent.decode bytes).inum = 0 then
          pure off
        else
          findEmpty dp rounds (off + direntSize)
      else
        pure off

def dirlink (dp : Slot) (name : ℕ → BitVec 8) (inum : ℕ) : VolumeM ℤ := do
  match ← dirlookup sb devsw dp name with
  | some (ip, _) =>
    iput sb ip
    pure (-1)
  | none =>
    let size ← look fun v => (v.inode dp).size
    let off ← findEmpty sb devsw dp size.toNat 0
    let de : Dirent := ⟨BitVec.ofNat 16 inum, strncpy name⟩
    let r ← writei sb devsw dp de.encode (BitVec.ofNat 32 off) (BitVec.ofNat 32 direntSize)
    if r ≠ direntSize then stop .dirlink else pure 0

end Contents

end Xv6.FileSystem
