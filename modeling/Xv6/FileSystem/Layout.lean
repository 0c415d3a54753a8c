import Xv6.Storage.Head

/-!
# The on-disk format

The superblock, the inodes packed into blocks and the free bitmap of `fs.h`. A
`Superblock` carries the facts that make its areas follow one another on the
disk: the blocks before `nmeta` hold the boot block, the superblock, the log,
the inodes and the bitmap, and the data blocks fill the rest.

An on-disk inode is read from and written to its 64 bytes of an inode block
field by field. Writing one inode leaves the others of its block alone.
-/

namespace Xv6.FileSystem

open ByteBlock Nat

/-- `struct superblock`, with its areas in order and every block number within
a C `int`. -/
structure Superblock where
  size : ℕ
  nblocks : ℕ
  ninodes : ℕ
  nlog : ℕ
  logstart : ℕ
  inodestart : ℕ
  bmapstart : ℕ
  log_after_super : 2 ≤ logstart
  inodes_after_log : logstart + nlog ≤ inodestart
  bitmap_after_inodes : inodestart + ninodes / ipb + 1 ≤ bmapstart
  data_after_bitmap : bmapstart + size / bpb + 1 ≤ size - nblocks
  nblocks_le : nblocks ≤ size
  size_lt : size < 2 ^ 31

namespace Superblock

def nmeta (sb : Superblock) : ℕ := sb.size - sb.nblocks

def iblock (sb : Superblock) (i : ℕ) : ℕ := i / ipb + sb.inodestart

def bblock (sb : Superblock) (b : ℕ) : ℕ := b / bpb + sb.bmapstart

def data (sb : Superblock) : Set ℕ := {b | sb.nmeta ≤ b ∧ b < sb.size}

variable {sb : Superblock} {i b : ℕ}

theorem iblock_lt_bmapstart (hi : i < sb.ninodes) : sb.iblock i < sb.bmapstart := by
  have hle : i / ipb ≤ sb.ninodes / ipb := Nat.div_le_div_right (Nat.le_of_lt hi)
  have hfit := sb.bitmap_after_inodes
  unfold iblock
  omega

theorem bmapstart_le_bblock : sb.bmapstart ≤ sb.bblock b := le_add_left _ _

theorem bblock_lt_nmeta (hb : b < sb.size) : sb.bblock b < sb.nmeta := by
  have hle : b / bpb ≤ sb.size / bpb := Nat.div_le_div_right (Nat.le_of_lt hb)
  have hfit := sb.data_after_bitmap
  unfold bblock nmeta
  omega

theorem bmapstart_lt_nmeta (sb : Superblock) : sb.bmapstart < sb.nmeta := by
  have hfit := sb.data_after_bitmap
  simp only [bpb, bSize] at hfit
  unfold nmeta
  omega

theorem iblock_lt_nmeta (hi : i < sb.ninodes) : sb.iblock i < sb.nmeta :=
  lt_trans (iblock_lt_bmapstart hi) sb.bmapstart_lt_nmeta

theorem iblock_ne_bblock (hi : i < sb.ninodes) : sb.iblock i ≠ sb.bblock b :=
  Nat.ne_of_lt (Nat.lt_of_lt_of_le (iblock_lt_bmapstart hi) bmapstart_le_bblock)

theorem iblock_ne_of_mem_data (hi : i < sb.ninodes) (hb : b ∈ sb.data) : sb.iblock i ≠ b :=
  Nat.ne_of_lt (Nat.lt_of_lt_of_le (iblock_lt_nmeta hi) hb.1)

theorem bblock_ne_of_mem_data {c : ℕ} (hc : c < sb.size) (hb : b ∈ sb.data) : sb.bblock c ≠ b :=
  Nat.ne_of_lt (Nat.lt_of_lt_of_le (bblock_lt_nmeta hc) hb.1)

theorem pos_of_mem_data (hb : b ∈ sb.data) : 0 < b :=
  lt_of_lt_of_le (zero_lt_of_lt sb.bmapstart_lt_nmeta) hb.1

end Superblock

abbrev tDir : BitVec 16 := 1

abbrev tFile : BitVec 16 := 2

abbrev tDev : BitVec 16 := 3

/-- `struct dinode`. The last address is that of the indirect block. -/
@[ext]
structure Dinode where
  type : BitVec 16
  major : BitVec 16
  minor : BitVec 16
  nlink : BitVec 16
  size : BitVec 32
  addrs : Fin (nDirect + 1) → BitVec 32

abbrev indirectSlot : Fin (nDirect + 1) := Fin.last nDirect

def dinodeAt (d : Block) (k : ℕ) : Dinode where
  type := u16At d (dinodeSize * k)
  major := u16At d (dinodeSize * k + 2)
  minor := u16At d (dinodeSize * k + 4)
  nlink := u16At d (dinodeSize * k + 6)
  size := u32At d (dinodeSize * k + 8)
  addrs j := u32At d (dinodeSize * k + 12 + 4 * j)

def setDinode (d : Block) (k : ℕ) (x : Dinode) : Block :=
  let d := setU16 d (dinodeSize * k) x.type
  let d := setU16 d (dinodeSize * k + 2) x.major
  let d := setU16 d (dinodeSize * k + 4) x.minor
  let d := setU16 d (dinodeSize * k + 6) x.nlink
  let d := setU32 d (dinodeSize * k + 8) x.size
  setU32s d (dinodeSize * k + 12) x.addrs

def newDinode (d : Block) (k : ℕ) (type : BitVec 16) : Block :=
  setU16 (store d (dinodeSize * k) dinodeSize fun _ => 0) (dinodeSize * k) type

def Dinode.fresh (type : BitVec 16) : Dinode where
  type := type
  major := 0
  minor := 0
  nlink := 0
  size := 0
  addrs := fun _ => 0

/-- Two blocks that agree on the bytes of place `k` hold the same inode there. -/
theorem dinodeAt_congr {d d' : Block} {k : ℕ}
    (h : ∀ j < dinodeSize, byteAt d (dinodeSize * k + j) = byteAt d' (dinodeSize * k + j)) :
    dinodeAt d k = dinodeAt d' k := by
  have h16 : ∀ j, j + 2 ≤ dinodeSize →
      u16At d (dinodeSize * k + j) = u16At d' (dinodeSize * k + j) := by
    intro j hj
    simp only [u16At, add_assoc]
    rw [h j (by omega), h (j + 1) (by omega)]
  have h32 : ∀ j, j + 4 ≤ dinodeSize →
      u32At d (dinodeSize * k + j) = u32At d' (dinodeSize * k + j) := by
    intro j hj
    simp only [u32At, add_assoc]
    rw [h j (by omega), h (j + 1) (by omega), h (j + 2) (by omega), h (j + 3) (by omega)]
  ext1
  · exact h16 0 (by decide)
  · exact h16 2 (by decide)
  · exact h16 4 (by decide)
  · exact h16 6 (by decide)
  · exact h32 8 (by decide)
  · funext j
    have hj := j.isLt
    simp only [dinodeAt, add_assoc]
    exact h32 (12 + 4 * j) (by simp only [dinodeSize, nDirect] at hj ⊢; omega)

section Places

variable (d : Block) {k k' : ℕ}

theorem dinodeAt_store_of_ne {off len : ℕ} (f : ℕ → BitVec 8) (hoff : dinodeSize * k ≤ off)
    (hlen : off + len ≤ dinodeSize * k + dinodeSize) (hk : k' ≠ k) :
    dinodeAt (store d off len f) k' = dinodeAt d k' := by
  apply dinodeAt_congr
  intro j hj
  simp only [dinodeSize] at hoff hlen hj ⊢
  exact byteAt_store_outside d f (by omega)

theorem dinodeAt_setDinode_of_ne (x : Dinode) (hk : k' ≠ k) :
    dinodeAt (setDinode d k x) k' = dinodeAt d k' := by
  have hend : dinodeSize = 12 + 4 * (nDirect + 1) := rfl
  simp only [setDinode, setU32s, setU32, setU16]
  rw [dinodeAt_store_of_ne _ _ (by omega) (by omega) hk,
    dinodeAt_store_of_ne _ _ (by omega) (by omega) hk,
    dinodeAt_store_of_ne _ _ (by omega) (by omega) hk,
    dinodeAt_store_of_ne _ _ (by omega) (by omega) hk,
    dinodeAt_store_of_ne _ _ (by omega) (by omega) hk,
    dinodeAt_store_of_ne _ _ (by omega) (by omega) hk]

theorem dinodeAt_newDinode_of_ne (type : BitVec 16) (hk : k' ≠ k) :
    dinodeAt (newDinode d k type) k' = dinodeAt d k' := by
  simp only [newDinode, setU16]
  rw [dinodeAt_store_of_ne _ _ (by omega) (by simp only [dinodeSize]; omega) hk,
    dinodeAt_store_of_ne _ _ (by omega) (by omega) hk]

theorem dinodeAt_setDinode (x : Dinode) (hk : k < ipb) : dinodeAt (setDinode d k x) k = x := by
  have hfit : dinodeSize * k + 12 + 4 * (nDirect + 1) ≤ bSize := by
    simp only [ipb, bSize, dinodeSize, nDirect] at hk ⊢
    omega
  -- a field passes the stores after its own one and reads back what that one left
  ext1
  · simp only [dinodeAt, setDinode, setU32s, setU32]
    rw [u16At_store_outside _ _ (by omega), u16At_store_outside _ _ (by omega)]
    simp only [setU16]
    rw [u16At_store_outside _ _ (by omega), u16At_store_outside _ _ (by omega),
      u16At_store_outside _ _ (by omega)]
    exact u16At_setU16 d _ x.type (by omega)
  · simp only [dinodeAt, setDinode, setU32s, setU32]
    rw [u16At_store_outside _ _ (by omega), u16At_store_outside _ _ (by omega), setU16,
      u16At_store_outside _ _ (by omega), setU16, u16At_store_outside _ _ (by omega)]
    exact u16At_setU16 _ _ x.major (by omega)
  · simp only [dinodeAt, setDinode, setU32s, setU32]
    rw [u16At_store_outside _ _ (by omega), u16At_store_outside _ _ (by omega), setU16,
      u16At_store_outside _ _ (by omega)]
    exact u16At_setU16 _ _ x.minor (by omega)
  · simp only [dinodeAt, setDinode, setU32s, setU32]
    rw [u16At_store_outside _ _ (by omega), u16At_store_outside _ _ (by omega)]
    exact u16At_setU16 _ _ x.nlink (by omega)
  · simp only [dinodeAt, setDinode, setU32s]
    rw [u32At_store_outside _ _ (by omega)]
    exact u32At_setU32 _ _ x.size (by omega)
  · funext j
    exact u32At_setU32s _ x.addrs hfit j

theorem dinodeAt_newDinode (type : BitVec 16) (hk : k < ipb) :
    dinodeAt (newDinode d k type) k = Dinode.fresh type := by
  have hfit : dinodeSize * k + dinodeSize ≤ bSize := by
    simp only [ipb, bSize, dinodeSize] at hk ⊢
    omega
  have h16 : ∀ j, 2 ≤ j → j + 2 ≤ dinodeSize →
      u16At (newDinode d k type) (dinodeSize * k + j) = 0 := by
    intro j hj hj'
    rw [newDinode, setU16, u16At_store_outside _ _ (by omega),
      u16At_store_zero _ (by omega) (by omega) (by omega)]
  have h32 : ∀ j, 2 ≤ j → j + 4 ≤ dinodeSize →
      u32At (newDinode d k type) (dinodeSize * k + j) = 0 := by
    intro j hj hj'
    rw [newDinode, setU16, u32At_store_outside _ _ (by omega),
      u32At_store_zero _ (by omega) (by omega) (by omega)]
  ext1
  · exact u16At_setU16 _ _ type (by simp only [dinodeSize] at hfit ⊢; omega)
  · exact h16 2 (by decide) (by decide)
  · exact h16 4 (by decide) (by decide)
  · exact h16 6 (by decide) (by decide)
  · exact h32 8 (by decide) (by decide)
  · funext j
    have hj := j.isLt
    simp only [dinodeAt, add_assoc]
    exact h32 (12 + 4 * j) (by omega) (by simp only [dinodeSize, nDirect] at hj ⊢; omega)

end Places

end Xv6.FileSystem
