import Xv6.FileSystem.Blocks

/-!
# Runs from an image

The kernel boots from an image with an empty inode cache. In every state that the calls of
the inode layer reach from there, an inode has at most one entry in the cache, and a valid
entry holds what the disk holds, although `bmap` stores block addresses in the entry only
and `writei` copies the inode to disk only when it has grown: without a hole, a write that
does not make the file longer allocates nothing.

The same argument makes reading safe outside a transaction: what `readi` returns does not depend
on the allocator of `bmap`.
-/

namespace Xv6.FileSystem

variable {sb : Superblock} {T : Table} {ip : Slot} {block : ℕ → Block}

/-- The state of the kernel before the first call: nothing is cached. -/
def boot (block : ℕ → Block) : Volume where
  block := block
  inode _ := { Dinode.fresh 0 with inum := 0, ref := 0, locked := false, valid := false }

/-- A file system on disk: its free map marks the blocks that its inodes refer to, each of
them once, and no inode has a hole below its size. -/
structure Image (sb : Superblock) (block : ℕ → Block) : Prop where
  owned : BlocksOwned sb ((boot block).dinode sb) block
  noHole : ∀ i < sb.ninodes, ((boot block).dinode sb i).hasContents →
    NoHole sb ((boot block).dinode sb) block i

theorem BlocksOwned.ledger (h : BlocksOwned sb T block) : Ledger sb T ∅ block where
  owned := by
    refine ⟨fun p q b => h.atMostOne b p q, fun b => ?_, by simp⟩
    constructor
    · rintro ⟨hb, hmarked⟩
      obtain ⟨p, hp, -⟩ := (h.marked_iff b hb).1 hmarked
      exact .inl ⟨p, hp⟩
    · rintro (⟨p, hp⟩ | hb)
      · have hb := h.inRange b p hp
        exact ⟨hb, (h.marked_iff b hb).2 ⟨p, hp, fun q hq => h.atMostOne b q p hq hp⟩⟩
      · exact absurd hb (Set.notMem_empty b)
  metadata := h.metadata

theorem Image.wellFormed (h : Image sb block) : WellFormed sb (boot block) where
  ledger := h.owned.ledger
  disk _ _ := rfl
  noHole := h.noHole
  unique _ _ hp := absurd hp (Nat.lt_irrefl 0)
  cached _ hp := absurd hp (Nat.lt_irrefl 0)
  locked _ hp := by simp [boot] at hp

theorem Image.sound {devsw : Devices} {ops : List Op} {s : System} (h : Image sb block)
    (hrun : Machine.run (step sb devsw) ⟨boot block, none⟩ ops = some s)
    (hreturned : s.panicked = none) : Sound sb (s.vol.dinode sb) s.vol :=
  wellFormed_of_run h.wellFormed hrun hreturned

section WriteThrough

variable {devsw : Devices} {ops : List Op} {s : System}

/-- From an image without holes, after any calls that have returned, no two entries in use
are for one inode, and an entry that is in use, valid and not locked agrees with the inode
on disk. -/
theorem inode_cache_write_through (himage : Image sb block)
    (hrun : Machine.run (step sb devsw) ⟨boot block, none⟩ ops = some s)
    (hreturned : s.panicked = none) :
    (∀ p q, 0 < (s.vol.inode p).ref → 0 < (s.vol.inode q).ref →
      (s.vol.inode p).inum = (s.vol.inode q).inum → p = q) ∧
    ∀ p, 0 < (s.vol.inode p).ref → (s.vol.inode p).valid = true → (s.vol.inode p).locked = false →
        (s.vol.inode p).toDinode = s.vol.dinode sb (s.vol.inode p).inum := by
  have hsound := himage.sound hrun hreturned
  exact ⟨hsound.unique, fun p href hvalid _ => (hsound.cached p href hvalid).copy⟩

theorem emptyVolume_image : Image tinyDisk emptyVolume.block :=
  ⟨emptyVolume_wellFormed.ledger.blocksOwned, emptyVolume_wellFormed.noHole⟩

def createWrite : List Op :=
  [.ialloc tFile, .ilock 0, .writei 0 (fun i => BitVec.ofNat 8 i) 0 600, .iunlock 0]

theorem inode_cache_write_through_createWrite :
    ∃ s, Machine.run (step tinyDisk ⟨fun _ => none, fun _ => none⟩)
        ⟨boot emptyVolume.block, none⟩ createWrite = some s ∧
      (s.vol.inode 0).size = 600 ∧ (s.vol.inode 0).toDinode = s.vol.dinode tinyDisk 1 := by
  obtain ⟨s, hs, hreturned, href, hvalid, hlocked, hinum, hsize⟩ : ∃ s, Machine.run
      (step tinyDisk noDriver) ⟨boot emptyVolume.block, none⟩ createWrite = some s ∧
      s.panicked = none ∧ 0 < (s.vol.inode 0).ref ∧
      (s.vol.inode 0).valid = true ∧ (s.vol.inode 0).locked = false ∧ (s.vol.inode 0).inum = 1 ∧
      (s.vol.inode 0).size = 600 := by decide +kernel
  have hagree := (inode_cache_write_through emptyVolume_image hs hreturned).2 0 href hvalid hlocked
  rw [hinum] at hagree
  exact ⟨s, hs, hsize, hagree⟩

end WriteThrough

section NoHoles

variable {devsw : Devices} {ops : List Op} {s : System}

/-- A file without holes is not longer than the longest one, and each of its blocks has an
address. -/
theorem NoHole.blocks {i : ℕ} (hledger : Ledger sb T ∅ block) (h : NoHole sb T block i) :
    (T i).size.toNat ≤ maxFile * bSize ∧ ∀ bn < ((T i).size.toNat + bSize - 1) / bSize,
        ∃ b, b ≠ 0 ∧ blockTarget sb T block i bn = some b := by
  constructor
  · by_contra hlong
    refine h maxFile (Nat.not_le.1 hlong) ?_
    rw [blockTarget, if_neg (by decide), dif_neg (by decide)]
  · intro bn hbn
    have hbelow : bn * bSize < (T i).size.toNat := by
      simp only [bSize] at hbn ⊢
      omega
    obtain ⟨b, hb⟩ := Option.ne_none_iff_exists'.1 (h bn hbelow)
    obtain ⟨p, hp, -⟩ := exists_of_blockTarget hb
    exact ⟨b, Nat.ne_of_gt (Superblock.pos_of_mem_data (hledger.mem_data hp)), hb⟩

/-- From an image without holes, after any calls that have returned, every file and directory
is at most as long as the longest file and has an address for each of its blocks, and
reading from a locked inode returns, whatever the allocator, and leaves the volume alone. -/
theorem reads_never_allocate (himage : Image sb block)
    (hrun : Machine.run (step sb devsw) ⟨boot block, none⟩ ops = some s)
    (hreturned : s.panicked = none) :
    (∀ i < sb.ninodes, (s.vol.dinode sb i).hasContents →
      (s.vol.dinode sb i).size.toNat ≤ maxFile * bSize ∧
      ∀ bn < ((s.vol.dinode sb i).size.toNat + bSize - 1) / bSize,
        ∃ b, b ≠ 0 ∧ blockTarget sb (s.vol.dinode sb) s.vol.block i bn = some b) ∧
    ∀ ip, (s.vol.inode ip).locked = true → ∀ off n, ∃ r,
      readi sb devsw ip off n s.vol = (.ok r, s.vol) ∧
      ∀ alloc, readiWith alloc devsw ip off n s.vol = (.ok r, s.vol) := by
  have hsound := himage.sound hrun hreturned
  refine ⟨fun i hi hcontents => (hsound.noHole i hi hcontents).blocks hsound.ledger, ?_⟩
  intro ip hlocked off n
  refine ⟨_, ?_, fun _ => hsound.readiWith hlocked off n⟩
  rw [← readiWith_balloc, hsound.readiWith hlocked off n]

theorem reads_never_allocate_createWrite :
    ∃ s, Machine.run (step tinyDisk ⟨fun _ => none, fun _ => none⟩)
        ⟨boot emptyVolume.block, none⟩ (createWrite ++ [.ilock 0]) = some s ∧
      ∃ r, ∀ alloc, readiWith alloc ⟨fun _ => none, fun _ => none⟩ 0 0 600 s.vol =
        (.ok r, s.vol) := by
  obtain ⟨s, hs, hreturned, hlocked⟩ : ∃ s, Machine.run (step tinyDisk noDriver)
      ⟨boot emptyVolume.block, none⟩ (createWrite ++ [.ilock 0]) = some s ∧ s.panicked = none ∧
      (s.vol.inode 0).locked = true := by decide +kernel
  obtain ⟨r, -, hr⟩ := (reads_never_allocate emptyVolume_image hs hreturned).2 0 hlocked 0 600
  exact ⟨s, hs, r, hr⟩

end NoHoles

end Xv6.FileSystem
