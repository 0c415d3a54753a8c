import Xv6.FileSystem.Contents
import Xv6.Library.Machine

/-!
# Block ownership

The routines of the inode layer run one after another, in any order in which
their callers are allowed to call them. Whatever they do, every data block has at
most one owner and the free map marks exactly the metadata and the owned blocks.
In particular `bfree` is never asked to free a block that is free.
-/

namespace Xv6.FileSystem

open Routine

/-- A call of the inode layer. `setLinks` stands for the assignments to
`ip->nlink` and the device numbers, each followed by `iupdate`. -/
inductive Op where
  | iget (inum : ℕ)
  | idup (ip : Slot)
  | ilock (ip : Slot)
  | iunlock (ip : Slot)
  | ialloc (type : BitVec 16)
  | setLinks (ip : Slot) (major minor nlink : BitVec 16)
  | readi (ip : Slot) (off n : BitVec 32)
  | writei (ip : Slot) (src : ℕ → BitVec 8) (off n : BitVec 32)
  | dirlink (dp : Slot) (name : ℕ → BitVec 8) (inum : ℕ)
  | itrunc (ip : Slot)
  | iput (ip : Slot)

/-- The routine of a call, its result dropped. -/
def Op.perform (sb : Superblock) (devsw : Devices) : Op → VolumeM Unit
  | .iget inum => do
      let _ ← FileSystem.iget inum
  | .idup ip => do
      let _ ← FileSystem.idup ip
  | .ilock ip => FileSystem.ilock sb ip
  | .iunlock ip => FileSystem.iunlock ip
  | .ialloc type => do
      let _ ← FileSystem.ialloc sb type
  | .setLinks ip major minor nlink => FileSystem.setLinks sb ip major minor nlink
  | .readi ip off n => do
      let _ ← FileSystem.readi sb devsw ip off n
  | .writei ip src off n => do
      let _ ← FileSystem.writei sb devsw ip src off n
  | .dirlink dp name inum => do
      let _ ← FileSystem.dirlink sb devsw dp name inum
  | .itrunc ip => FileSystem.itrunc sb ip
  | .iput ip => FileSystem.iput sb ip

/-- What a caller has to have done first: it holds a reference to an inode that
it copies or drops, and the lock of an inode that it works on. -/
def Op.Allowed (sb : Superblock) (v : Volume) : Op → Prop
  | .iget _ => True
  | .idup ip => 0 < (v.inode ip).ref
  | .ilock ip => (v.inode ip).inum < sb.ninodes
  | .iunlock _ => True
  | .ialloc _ => True
  | .setLinks ip _ _ _ => (v.inode ip).locked = true
  | .readi ip _ _ => (v.inode ip).locked = true
  | .writei ip _ _ _ => (v.inode ip).locked = true
  | .dirlink dp _ _ => (v.inode dp).locked = true
  | .itrunc ip => (v.inode ip).locked = true
  | .iput ip => 0 < (v.inode ip).ref

instance (sb : Superblock) (v : Volume) (op : Op) : Decidable (op.Allowed sb v) :=
  match op with
  | .iget _ | .iunlock _ | .ialloc _ => isTrue trivial
  | .ilock _ => inferInstanceAs (Decidable (_ < sb.ninodes))
  | .idup _ | .iput _ => inferInstanceAs (Decidable (0 < _))
  | .setLinks _ _ _ _ | .readi _ _ _ | .writei _ _ _ _ | .dirlink _ _ _ | .itrunc _ =>
    inferInstanceAs (Decidable (_ = true))

/-- A volume, and the panic that has stopped the kernel if there was one. -/
structure System where
  vol : Volume
  panicked : Option Panic

def step (sb : Superblock) (devsw : Devices) (s : System) (op : Op) : Option System :=
  if s.panicked = none ∧ op.Allowed sb s.vol then
    match op.perform sb devsw s.vol with
    | (.ok _, v) => some ⟨v, none⟩
    | (.error e, v) => some ⟨v, some e⟩
  else
    none

/-- A sound volume, its table being the one on the disk. -/
def WellFormed (sb : Superblock) (v : Volume) : Prop := Sound sb (v.dinode sb) v

/-- Every data block has at most one owner, and the free map marks the metadata
blocks and the blocks that have one. -/
structure BlocksOwned (sb : Superblock) (T : Table) (block : ℕ → Block) : Prop where
  atMostOne : ∀ b p q, target sb T block p = some b → target sb T block q = some b → p = q
  marked_iff : ∀ b ∈ sb.data, marked sb block b = true ↔ ∃! p, target sb T block p = some b
  metadata : ∀ b < sb.nmeta, marked sb block b = true
  inRange : ∀ b p, target sb T block p = some b → b ∈ sb.data

theorem Ledger.blocksOwned {sb : Superblock} {T : Table} {block : ℕ → Block}
    (h : Ledger sb T ∅ block) : BlocksOwned sb T block where
  atMostOne b p q hp hq := h.owned.inj p q b hp hq
  marked_iff b hb := by
    rw [← h.owned.used_iff_existsUnique]
    exact ⟨fun hmarked => ⟨hb, hmarked⟩, fun hused => hused.2⟩
  metadata := h.metadata
  inRange _ _ hp := h.mem_data hp

section Runs

variable {sb : Superblock} {devsw : Devices} {v : Volume} {s t : System} {op : Op}
  {ops : List Op}

/-- Every call keeps a volume sound, or panics and leaves it intact. -/
theorem perform_spec (devsw : Devices) {T : Table} (h : Sound sb T v) (hop : op.Allowed sb v) :
    wp (op.perform sb devsw) (fun _ v' => ∃ T', Sound sb T' v') (Stopped sb) v := by
  cases op with
  | iget inum =>
    simp only [Op.perform, wp_bind, wp_pure]
    refine wp_mono (iget_spec h inum) (fun _ _ h' => ⟨T, h'.1⟩) ?_
    rintro e v' ⟨rfl, rfl⟩
    exact ⟨by decide, h.intact⟩
  | idup ip => exact ⟨T, h.addRef hop⟩
  | ilock ip => exact wp_mono (ilock_spec h hop) (fun _ _ h' => ⟨T, h'⟩) fun _ _ h' => h'
  | iunlock ip => exact wp_mono (iunlock_spec h) (fun _ _ h' => ⟨T, h'⟩) fun _ _ h' => h'
  | ialloc type =>
    simp only [Op.perform, wp_bind, wp_pure]
    exact ialloc_spec h type
  | setLinks ip major minor nlink => exact setLinks_spec h hop major minor nlink
  | readi ip off n =>
    simp only [Op.perform, wp_bind, wp_pure]
    exact wp_mono_ok (readi_spec h hop devsw off n) fun _ _ h' => ⟨T, h'.1 ▸ h⟩
  | writei ip src off n =>
    simp only [Op.perform, wp_bind, wp_pure]
    refine wp_mono (writei_spec h hop devsw src off n) ?_ fun _ _ h' => h'.1
    rintro _ _ ⟨T', h', -⟩
    exact ⟨T', h'⟩
  | dirlink dp name inum =>
    simp only [Op.perform, wp_bind, wp_pure]
    exact dirlink_spec h hop devsw name inum
  | itrunc ip => exact sound_itrunc h hop
  | iput ip =>
    refine wp_mono (iput_spec h hop) (fun _ _ h' => h'.1) ?_
    rintro e v' ⟨rfl, rfl, -⟩
    exact ⟨by decide, h.intact⟩

def System.Inv (sb : Superblock) (s : System) : Prop :=
  match s.panicked with
  | none => ∃ T, Sound sb T s.vol
  | some e => Stopped sb e s.vol

theorem step_inv (h : s.Inv sb) (hs : step sb devsw s op = some t) : t.Inv sb := by
  rw [step, Option.ite_none_right_eq_some] at hs
  obtain ⟨⟨hnone, hop⟩, hs⟩ := hs
  rw [System.Inv, hnone] at h
  obtain ⟨T, h⟩ := h
  have hspec := perform_spec devsw h hop
  rw [wp] at hspec
  rcases hx : op.perform sb devsw s.vol with ⟨r, v'⟩
  rw [hx] at hs hspec
  cases r with
  | ok _ =>
    cases hs
    exact hspec
  | error e =>
    cases hs
    exact hspec

theorem run_inv (hwf : WellFormed sb v)
    (hrun : Machine.run (step sb devsw) ⟨v, none⟩ ops = some s) : s.Inv sb := by
  have hstart : System.Inv sb ⟨v, none⟩ := ⟨_, hwf⟩
  exact Machine.run_invariant hstart (fun _ _ _ h hs => step_inv h hs) hrun

theorem wellFormed_of_run (hwf : WellFormed sb v)
    (hrun : Machine.run (step sb devsw) ⟨v, none⟩ ops = some s) (hs : s.panicked = none) :
    WellFormed sb s.vol := by
  have hinv := run_inv hwf hrun
  rw [System.Inv, hs] at hinv
  obtain ⟨T, h⟩ := hinv
  exact h.dinode

theorem block_ownership (hwf : WellFormed sb v)
    (hrun : Machine.run (step sb devsw) ⟨v, none⟩ ops = some s) :
    BlocksOwned sb (s.vol.inodeOf sb) s.vol.block ∧
      (s.panicked = none → BlocksOwned sb (s.vol.dinode sb) s.vol.block) ∧
      s.panicked ≠ some .freeingFreeBlock := by
  have hinv := run_inv hwf hrun
  rw [System.Inv] at hinv
  cases hpanicked : s.panicked with
  | none =>
    rw [hpanicked] at hinv
    obtain ⟨T, h⟩ := hinv
    exact ⟨h.intact.blocksOwned, fun _ => h.dinode.ledger.blocksOwned, by simp⟩
  | some e =>
    rw [hpanicked] at hinv
    refine ⟨hinv.2.blocksOwned, by simp, fun he => hinv.1 (Option.some.inj he)⟩

/-- A disk of eight blocks: one for the boot loader, the superblock, two blocks
of inodes, the free map and three data blocks. -/
def tinyDisk : Superblock where
  size := 8
  nblocks := 3
  ninodes := 8
  nlog := 0
  logstart := 2
  inodestart := 2
  bmapstart := 4
  log_after_super := by decide
  inodes_after_log := by decide
  bitmap_after_inodes := by decide
  data_after_bitmap := by decide
  nblocks_le := by decide
  size_lt := by decide

/-- The empty file system on it, right after boot. -/
def emptyVolume : Volume where
  block b := if b = 4 then fun j => if j.val = 0 then 0x1f else 0 else fun _ => 0
  inode _ := { Dinode.fresh 0 with inum := 0, ref := 0, locked := false, valid := false }

def noDriver : Devices := ⟨fun _ => none, fun _ => none⟩

theorem emptyVolume_wellFormed : WellFormed tinyDisk emptyVolume := by
  have htype : ∀ i < 8, (emptyVolume.dinode tinyDisk i).type = 0 := by decide
  have hnone : ∀ i k, addrTarget tinyDisk (emptyVolume.dinode tinyDisk) i k = none := by
    intro i k
    unfold addrTarget
    split_ifs with hi
    · rw [Dinode.pointer, if_pos (htype i hi)]
    · rfl
  have htarget : ∀ p, target tinyDisk (emptyVolume.dinode tinyDisk) emptyVolume.block p =
      none := by
    intro p
    cases p with
    | addr i k => exact hnone i k
    | entry i j => rw [target, hnone, Option.bind_none]
  have hunused : ∀ b < 8, 5 ≤ b → marked tinyDisk emptyVolume.block b = false := by decide
  constructor
  · refine ⟨⟨fun p q b hp => ?_, fun b => ?_, by simp⟩, by decide⟩
    · simp [htarget] at hp
    · constructor
      · rintro ⟨hb, hmarked⟩
        simp [hunused b hb.2 hb.1] at hmarked
      · rintro (⟨p, hp⟩ | hb)
        · simp [htarget] at hp
        · cases hb
  · exact fun _ _ => rfl
  · exact fun i hi hcontents => absurd (htype i hi) hcontents.1
  · exact fun p q hp => absurd hp (Nat.lt_irrefl 0)
  · exact fun p hp => absurd hp (Nat.lt_irrefl 0)
  · simp [emptyVolume]

def createWriteFree : List Op :=
  [.ialloc tFile, .ilock 0, .writei 0 (fun i => BitVec.ofNat 8 i) 0 600, .iunlock 0, .iput 0]

theorem block_ownership_createWriteFree :
    ∃ s, Machine.run (step tinyDisk ⟨fun _ => none, fun _ => none⟩) ⟨emptyVolume, none⟩
        createWriteFree = some s ∧
      BlocksOwned tinyDisk (s.vol.inodeOf tinyDisk) s.vol.block ∧
      s.panicked ≠ some .freeingFreeBlock := by
  obtain ⟨s, hs⟩ : ∃ s, Machine.run (step tinyDisk noDriver) ⟨emptyVolume, none⟩
      createWriteFree = some s := Option.isSome_iff_exists.1 (by decide +kernel)
  have howned := block_ownership emptyVolume_wellFormed hs
  exact ⟨s, hs, howned.1, howned.2.2⟩

end Runs

end Xv6.FileSystem
