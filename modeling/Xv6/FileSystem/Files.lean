import Xv6.FileSystem.Blocks

/-!
# Files as byte arrays

`readBytes` and `writeBytes` are what a file is for: a sequence of bytes that is read, overwritten
and extended. On a volume without holes and shared blocks `readi` and `writei` are these two
operations on the contents of the inode, which they reach through the block map in pieces, and
they leave the contents of all other inodes alone.
-/

namespace Xv6.FileSystem

open Routine List Nat

def Volume.file (sb : Superblock) (v : Volume) (i : ℕ) : List (BitVec 8) :=
  contents sb (v.dinode sb) v.block i

/-- A file with `bytes` written into it from `off` on. -/
def writeBytes (D : List (BitVec 8)) (off : ℕ) (bytes : List (BitVec 8)) :
    Option (List (BitVec 8)) :=
  if Refused D.length off bytes.length then none
  else some (D.take off ++ bytes ++ D.drop (off + bytes.length))

variable {sb : Superblock} {T T' : Table} {v v' : Volume} {ip : Slot}

theorem length_file (v : Volume) (i : ℕ) : (v.file sb i).length = (v.dinode sb i).size.toNat :=
  length_contents ..

theorem contents_of_table {block : ℕ → Block} {i : ℕ} (h : T' i = T i) :
    contents sb T' block i = contents sb T block i := by
  have haddr : ∀ k, addrTarget sb T' i k = addrTarget sb T i k := fun k => by
    rw [addrTarget, addrTarget, h]
  refine contents_congr (by rw [h]) fun k => ?_
  rw [byteOf, blockTarget_congr haddr fun _ _ => rfl, byteOf]

theorem Sound.file (h : Sound sb T v) {i : ℕ} (hi : i < sb.ninodes) :
    v.file sb i = contents sb T v.block i :=
  contents_of_table (h.disk i hi)

theorem toNat_sizeAfter (size : BitVec 32) {stop : ℕ} (hstop : stop < 2 ^ 32) :
    (sizeAfter size stop).toNat = max size.toNat stop := by
  rw [sizeAfter]
  split_ifs with hlt
  · rw [BitVec.toNat_ofNat, mod_eq_of_lt hstop, max_eq_right (le_of_lt hlt)]
  · rw [max_eq_left (not_lt.1 hlt)]

/-- The bytes of a file after a write, one by one: those before it, those written, and those after
it that were there already. -/
theorem Saved.contents_self {off n : ℕ} {src : ℕ → BitVec 8} (h : Sound sb T v)
    (hlocked : (v.inode ip).locked = true) (htype : (T (v.inode ip).inum).type ≠ tDev)
    (hoff : off ≤ (T (v.inode ip).inum).size.toNat) (hstop : off + n < 2 ^ 32)
    (hsaved : Saved sb ip off (off + n) (fun k => src (k - off))
      (sizeAfter (T (v.inode ip).inum).size (off + n)) v T v' T') :
    contents sb T' v'.block (v.inode ip).inum =
      (contents sb T v.block (v.inode ip).inum).take off ++ (List.range n).map src ++
        (contents sb T v.block (v.inode ip).inum).drop (off + n) := by
  have ho := h.opened hlocked
  have hlen := length_contents sb T v.block (v.inode ip).inum
  have hlen' := length_contents sb T' v'.block (v.inode ip).inum
  rw [hsaved.table_self, toNat_sizeAfter _ hstop] at hlen'
  have hsame : ∀ k < (T (v.inode ip).inum).size.toNat, k < off ∨ off + n ≤ k →
      byteOf sb T' v'.block (v.inode ip).inum k = byteOf sb T v.block (v.inode ip).inum k := by
    intro k hk hout
    have hblock := h.noHole _ ho.inum_lt ⟨ho.type_ne, htype⟩ (k / bSize)
      (lt_of_le_of_lt (div_mul_le_self k bSize) hk)
    obtain ⟨b, hb⟩ := Option.ne_none_iff_exists'.1 hblock
    have hx : byteOf sb T v.block (v.inode ip).inum k = _ := congrArg (Option.map _) hb
    exact (hsaved.outside k _ hout hx).trans hx.symm
  refine ext_getElem ?_ fun k hk hk' => ?_
  · simp only [length_append, length_take, length_map, length_range, length_drop, hlen, hlen']
    omega
  · simp only [getElem_append, length_append, length_take, length_map,
      length_range, hlen, getElem_take, getElem_map, getElem_range,
      getElem_drop, getElem_contents, min_eq_left hoff]
    split_ifs with hmid hlow
    · rw [hsame k (by omega) (.inl hlow)]
    · rw [hsaved.inside k (by omega) hmid, Option.getD_some]
    · rw [hsame k (by omega) (.inr (by omega)), show off + n + (k - (off + n)) = k by omega]

section

variable (hwf : WellFormed sb v) (hlocked : (v.inode ip).locked = true)
  (htype : (v.inode ip).type ≠ tDev) (devsw : Devices) (off n : BitVec 32)
include hwf hlocked htype devsw off n

theorem readi_file :
    readi sb devsw ip off n v =
      (.ok (readResult (readBytes (v.file sb (v.inode ip).inum) off.toNat n.toNat)), v) := by
  obtain ⟨r, v', hread, rfl, hr⟩ := wp_returns (readi_spec hwf hlocked devsw off n) fun _ _ h => h
  rw [hread, hr htype]
  rfl

theorem writei_file (src : ℕ → BitVec 8) :
    wp (writei sb devsw ip src off n) (fun r v' => WellFormed sb v' ∧
        (match writeBytes (v.file sb (v.inode ip).inum) off.toNat
            ((List.range n.toNat).map src) with
          | none => r = -1 ∧ v' = v
          | some D => r = n.toNat ∧ v'.file sb (v.inode ip).inum = D) ∧
        (∀ j < sb.ninodes, j ≠ (v.inode ip).inum → v'.file sb j = v.file sb j) ∧
        ∃ size addrs, v'.inode ip = { v.inode ip with size := size, addrs := addrs })
      (fun _ _ => ¬ Refused (v.file sb (v.inode ip).inum).length off.toNat n.toNat ∧
        freeBlocks sb v.block < missing sb (v.dinode sb) v.block
          (spanPlaces (v.inode ip).inum off.toNat (off.toNat + n.toNat))) v := by
  have hwf' : Sound sb (v.dinode sb) v := hwf
  have ho := hwf'.opened hlocked
  rw [length_file]
  refine wp_mono (writei_spec hwf' hlocked devsw src off n) ?_ fun _ _ hstop => hstop.2.2
  rintro r v' ⟨T', hsound, hwritten⟩
  have hwritten := hwritten htype
  refine ⟨hsound.dinode, ?_⟩
  rw [writeBytes, length_file, length_map, length_range]
  rw [Written] at hwritten
  split_ifs at hwritten ⊢ with hrefused
  · obtain ⟨rfl, rfl, -⟩ := hwritten
    exact ⟨⟨rfl, rfl⟩, fun _ _ _ => rfl, _, _, rfl⟩
  · obtain ⟨hr, hsaved⟩ := hwritten
    rw [Refused, not_or, not_or, not_lt, not_le] at hrefused
    refine ⟨⟨hr, ?_⟩, fun j hj hne => ?_, _, _, hsaved.slot_self⟩
    · rw [hsound.file ho.inum_lt]
      refine hsaved.contents_self hwf' hlocked ?_ hrefused.1 hrefused.2.1
      rwa [← ho.copy]
    · rw [hsound.file hj, hsaved.other j hne]
      rfl

end

/-- `readi` and `writei` are the operations of a byte array. A write returns when the blocks that
it lacks are free. -/
theorem files_byteArrays (hwf : WellFormed sb v) (hlocked : (v.inode ip).locked = true)
    (htype : (v.inode ip).type ≠ tDev) (devsw : Devices) (off n : BitVec 32) (src : ℕ → BitVec 8) :
    readi sb devsw ip off n v =
        (.ok (readResult (readBytes (v.file sb (v.inode ip).inum) off.toNat n.toNat)), v) ∧
      ((¬ Refused (v.file sb (v.inode ip).inum).length off.toNat n.toNat →
          missing sb (v.dinode sb) v.block
            (spanPlaces (v.inode ip).inum off.toNat (off.toNat + n.toNat)) ≤
              freeBlocks sb v.block) →
        ∃ r v', writei sb devsw ip src off n v = (.ok r, v') ∧ WellFormed sb v' ∧
          (match writeBytes (v.file sb (v.inode ip).inum) off.toNat
              ((List.range n.toNat).map src) with
            | none => r = -1 ∧ v' = v
            | some D => r = n.toNat ∧ v'.file sb (v.inode ip).inum = D) ∧
          ∀ j < sb.ninodes, j ≠ (v.inode ip).inum → v'.file sb j = v.file sb j) := by
  refine ⟨readi_file hwf hlocked htype devsw off n, fun hroom => ?_⟩
  obtain ⟨r, v', hwrite, hwf', hbytes, hother, -⟩ := wp_returns
    (writei_file hwf hlocked htype devsw off n src) fun _ _ hstop =>
      not_lt.2 (hroom hstop.1) hstop.2
  exact ⟨r, v', hwrite, hwf', hbytes, hother⟩

theorem files_byteArrays_new :
    ∃ s, Machine.run (step tinyDisk ⟨fun _ => none, fun _ => none⟩) ⟨emptyVolume, none⟩
        [.ialloc tFile, .ilock 0] = some s ∧
      ∃ v', writei tinyDisk ⟨fun _ => none, fun _ => none⟩ 0 (fun i => BitVec.ofNat 8 (i + 7)) 0 3
          s.vol = (.ok 3, v') ∧ v'.file tinyDisk 1 = [7, 8, 9] := by
  obtain ⟨s, hs, hpanicked, hlocked, htype, hinum, hfile, hroom⟩ : ∃ s, Machine.run
      (step tinyDisk noDriver) ⟨emptyVolume, none⟩ [.ialloc tFile, .ilock 0] = some s ∧
      s.panicked = none ∧ (s.vol.inode 0).locked = true ∧ (s.vol.inode 0).type ≠ tDev ∧
      (s.vol.inode 0).inum = 1 ∧ s.vol.file tinyDisk 1 = [] ∧
      missing tinyDisk (s.vol.dinode tinyDisk) s.vol.block (spanPlaces 1 0 3) ≤
        freeBlocks tinyDisk s.vol.block := by
    decide +kernel
  obtain ⟨-, hwrite⟩ := files_byteArrays (wellFormed_of_run emptyVolume_wellFormed hs hpanicked)
    hlocked htype noDriver 0 3 fun i => BitVec.ofNat 8 (i + 7)
  rw [hinum, hfile] at hwrite
  obtain ⟨r, v', hr, -, hbytes, -⟩ := hwrite fun _ => hroom
  obtain ⟨rfl, hbytes⟩ := hbytes
  exact ⟨s, hs, v', hr, hbytes⟩

end Xv6.FileSystem
