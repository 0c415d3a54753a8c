import Xv6.Mkfs.WellFormed

/-!
# The kernel reads what mkfs wrote

`iappend` lays a file out chunk by chunk on the host, and `readi` finds its bytes again block by
block in the kernel. An inode whose blocks hold a list of bytes is read as that list, from every
offset and for every length. The files of the image are read so after the kernel has booted from
it, has found their inodes with `iget` and has loaded them with `ilock`, whether or not the root
directory has a hole.
-/

namespace Xv6.Mkfs

open Routine FileSystem List

/-- What `readi` returns for the bytes `l`. -/
def readSlice (l : List (BitVec 8)) (off n : BitVec 32) : ℤ × List (BitVec 8) :=
  if off.toNat ≤ l.length ∧ off.toNat + n.toNat < 2 ^ 32 then
    ((min n.toNat (l.length - off.toNat) : ℕ), (l.drop off.toNat).take n.toNat)
  else
    (-1, [])

section Readi

variable {T : Table} {v : Volume} {ip : Slot} {l : List (BitVec 8)}

theorem readSlice_eq (l : List (BitVec 8)) (off n : BitVec 32) :
    readSlice l off n = readResult (readBytes l off.toNat n.toNat) := by
  rw [readSlice, readBytes]
  by_cases hrange : off.toNat ≤ l.length ∧ off.toNat + n.toNat < 2 ^ 32
  · rw [if_pos hrange, if_neg (by omega), readResult, length_take, length_drop]
  · rw [if_neg hrange, if_pos (by omega), readResult]

variable (h : Stored T v.block (v.inode ip).inum l (blocksFor l))
include h

theorem Stored.noHole (hsize : (T (v.inode ip).inum).size.toNat = l.length) :
    NoHole sb T v.block (v.inode ip).inum := by
  intro bn hbn
  rw [h.blocks, blocksFor, Nat.lt_div_iff_mul_lt (by decide)]
  simp only [bSize] at hbn ⊢
  omega

theorem Stored.contents (hsize : (T (v.inode ip).inum).size.toNat = l.length) :
    FileSystem.contents sb T v.block (v.inode ip).inum = l := by
  have hlen := length_contents sb T v.block (v.inode ip).inum
  refine ext_getElem (hlen.trans hsize) fun k hk hk' => ?_
  obtain ⟨b, hb⟩ := Option.ne_none_iff_exists'.1 (h.noHole hsize (k / bSize)
    (Nat.lt_of_le_of_lt (Nat.div_mul_le_self k bSize) (by omega)))
  have hbyte := h.bytes _ b hb (k % bSize) (Nat.mod_lt k (by decide))
  rw [Nat.div_add_mod', getD_eq_getElem _ _ hk'] at hbyte
  rw [getElem_contents, byteOf, hb, Option.map_some, Option.getD_some, hbyte]

theorem Stored.readi (ho : Opened sb T ip v) (hsize : (T (v.inode ip).inum).size.toNat = l.length)
    (hdev : (T (v.inode ip).inum).type ≠ tDev) (devsw : Devices) (off n : BitVec 32) :
    readi sb devsw ip off n v = (.ok (readSlice l off n), v) := by
  rw [← ho.copy] at hdev
  rw [← readiWith_balloc, readiWith_there ho (fun _ => h.noHole hsize), if_neg hdev,
    h.contents hsize, readSlice_eq]

end Readi

def readFile (devsw : Devices) (inum : ℕ) (off n : BitVec 32) : VolumeM (ℤ × List (BitVec 8)) := do
  let ip ← iget inum
  ilock sb ip
  readi sb devsw ip off n

theorem boot_open (block : ℕ → Block) {inum : ℕ} (hi : inum < nInodes)
    (htype : ((boot block).dinode sb inum).type ≠ 0) :
    wp (do let ip ← iget inum; ilock sb ip; pure ip) (fun ip v => v.block = block ∧
      (v.inode ip).inum = inum ∧ Opened sb ((boot block).dinode sb) ip v) (fun _ _ => False)
      (boot block) := by
  have hnone : (List.finRange nInode).find? (fun p =>
      decide (0 < ((boot block).inode p).ref ∧ ((boot block).inode p).inum = inum)) = none := by
    simp [boot]
  have hsome : (List.finRange nInode).find? (fun p => decide (((boot block).inode p).ref = 0)) ≠
      none := by
    rw [ne_eq, List.find?_eq_none]
    intro hall
    exact hall 0 (mem_finRange 0) (decide_eq_true rfl)
  obtain ⟨ip, hip⟩ := Option.ne_none_iff_exists'.1 hsome
  simp only [iget, wp_bind, wp_look, id_eq, hnone, hip]
  simp only [ilock, FileSystem.acquiresleep, iload, wp_bind, wp_look, wp_update, wp_pure, wp_ite,
    wp_stop, Volume.modifyInode_inode_self, Volume.modifyInode_block]
  have hunlocked : ((boot block).inode ip).locked = false := rfl
  refine ⟨fun hlt => absurd hlt (Nat.lt_irrefl 1), fun _ => ⟨fun hlocked => ?_, fun _ => ?_⟩⟩
  · exact Bool.false_ne_true (hunlocked.symm.trans hlocked)
  · refine ⟨fun hvalid => absurd hvalid Bool.false_ne_true, fun _ =>
      ⟨fun hzero => htype hzero, fun _ => ⟨rfl, trivial, ?_⟩⟩⟩
    refine ⟨?_, ?_, ?_⟩ <;> rw [Volume.modifyInode_inode_self, Volume.modifyInode_inode_self,
      Volume.modifyInode_inode_self]
    · exact hi
    · rfl
    · exact htype

section Main

variable {files : List File} {m : State}

/-- The kernel reads a file of a finished image as the bytes that were copied into it. -/
theorem Finished.readFile (h : Finished files m ((boot m.sector).dinode sb))
    (hn : files.length + 2 ≤ nInodes) {k : ℕ} {f : File} (hf : files[k]? = some f)
    (devsw : Devices) (off n : BitVec 32) :
    wp (Mkfs.readFile devsw (k + 2) off n) (fun r _ => r = readSlice f.bytes off n)
      (fun _ _ => False) (boot m.sector) := by
  have hk : k < files.length := (List.getElem?_eq_some_iff.1 hf).1
  have hi : k + 2 < nInodes := by omega
  have hne : k + 2 ≠ rootIno := by simp [rootIno]
  have htype := h.types.file (k + 2) hi (by simp [rootIno]) (by omega)
  have hbytes : contents files (k + 2) = f.bytes := by
    rw [contents_file, hf]
    rfl
  have hstored := h.stored (k + 2) hi
  have hsize := h.size (k + 2) hi hne
  rw [hbytes] at hstored hsize
  have hopen := boot_open m.sector hi (by rw [htype]; decide)
  simp only [wp_bind, wp_pure] at hopen
  rw [Mkfs.readFile, wp_bind]
  refine wp_mono hopen (fun ip v hv => ?_) fun _ _ hfalse => hfalse
  rw [wp_bind]
  refine wp_mono hv ?_ fun _ _ hfalse => hfalse
  rintro _ v' ⟨hblock, hinum, ho⟩
  have hstored' : Stored ((boot m.sector).dinode sb) v'.block (v'.inode ip).inum f.bytes
      (blocksFor f.bytes) := by
    rw [hblock, hinum]
    exact hstored
  have hread := hstored'.readi ho (by rw [hinum, hsize]) (by rw [hinum, htype]; decide) devsw off n
  rw [wp, hread]

/-- `mkfs` and the kernel agree on the format: for files that fit on the disk, however they are
read, `mkfs` exits with status 0, and the kernel finds the size of each file in its inode and
reads from it, at every offset and for every length, the bytes of the file. -/
theorem mkfs_readi_agrees (hn : files.length + 2 ≤ nInodes) (hcap : Capacity files) :
    ∃ m, main files start = (.ok (), m) ∧ ∀ k f, files[k]? = some f →
      ((boot m.sector).dinode sb (k + 2)).size.toNat = f.bytes.length ∧
      ∀ devsw off n, (readFile devsw (k + 2) off n (boot m.sector)).1 =
        .ok (readSlice f.bytes off n) := by
  obtain ⟨m, hm⟩ := main_returns hn hcap
  obtain ⟨T, hT⟩ := wp_ok (main_spec hn) hm
  have hdisk := hT.dinode
  refine ⟨m, hm, fun k f hf => ⟨?_, fun devsw off n => ?_⟩⟩
  · have hk : k < files.length := (List.getElem?_eq_some_iff.1 hf).1
    rw [hdisk.size (k + 2) (by omega) (by simp [rootIno]), contents_file, hf]
    rfl
  · obtain ⟨r, v, hr, rfl⟩ := wp_returns (hdisk.readFile hn hf devsw off n) fun _ _ h => h
    rw [hr]

def runOf (n : ℕ) (b : BitVec 8) (h : 0 < n ∧ n ≤ bSize) : Chunk where
  bytes := List.replicate n b
  pos := by simpa using h.1
  le := by simpa using h.2

/-- A file of three blocks that is read in chunks which do not end where the blocks do. -/
def longFile : File where
  argv := [0x5f, 0x6c, 0x73]
  noNul := by decide
  chunks := some [runOf 512 1 (by decide), runOf 300 2 (by decide), runOf 512 3 (by decide)]

theorem mkfs_readi_agrees_longFile :
    ∃ m, main [longFile] start = (.ok (), m) ∧ ∀ devsw,
      (readFile devsw 2 510 4 (boot m.sector)).1 = .ok (4, [1, 1, 2, 2]) ∧
      (readFile devsw 2 810 4 (boot m.sector)).1 = .ok (4, [2, 2, 3, 3]) ∧
      (readFile devsw 2 1322 512 (boot m.sector)).1 = .ok (2, [3, 3]) := by
  have hcap : Capacity [longFile] := by
    refine ⟨?_, ?_, ?_, by decide +kernel⟩ <;> simp only [forall_mem_singleton] <;> decide +kernel
  obtain ⟨m, hm, hread⟩ := mkfs_readi_agrees (by decide) hcap
  have hslice : ∀ devsw off n, (readFile devsw 2 off n (boot m.sector)).1 =
      .ok (readSlice longFile.bytes off n) := (hread 0 longFile rfl).2
  refine ⟨m, hm, fun devsw => ⟨?_, ?_, ?_⟩⟩ <;> rw [hslice] <;> decide +kernel

end Main

end Xv6.Mkfs
