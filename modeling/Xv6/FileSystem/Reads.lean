import Xv6.FileSystem.Bytes

/-!
# Reading inodes

`readi` finds its blocks with `bmap`, which would allocate the ones that are missing. `readiWith`
is `readi` with the allocator as a parameter. In a file without holes it changes nothing, and it
returns the contents of the file from the offset on, whatever the allocator.
-/

namespace Xv6.FileSystem

open ByteBlock Routine List

variable {sb : Superblock} {T : Table} {v : Volume} {ip : Slot}

section Allocator

variable (alloc : VolumeM ℕ)

def addrOrWith (ip : Slot) (i : Fin (nDirect + 1)) : VolumeM ℕ := do
  let addr ← look fun v => (v.inode ip).addrs i
  if addr = 0 then
    let b ← alloc
    update fun v => v.modifyInode ip fun x => x.setAddr i (BitVec.ofNat 32 b)
    pure b
  else
    pure addr.toNat

def entryOrWith (addr j : ℕ) : VolumeM ℕ := do
  let a ← look fun v => wordAt (v.block addr) j
  if a = 0 then
    let b ← alloc
    update fun v => v.modifyBlock addr fun d => setWord d j (BitVec.ofNat 32 b)
    pure b
  else
    pure a.toNat

def bmapWith (ip : Slot) (bn : ℕ) : VolumeM ℕ :=
  if bn < nDirect then
    addrOrWith alloc ip (slotOf bn)
  else if bn - nDirect < nIndirect then do
    let addr ← addrOrWith alloc ip indirectSlot
    entryOrWith alloc addr (bn - nDirect)
  else
    stop .bmapOutOfRange

def readLoopWith (ip : Slot) (n : ℕ) : ℕ → ℕ → ℕ → VolumeM (List (BitVec 8))
  | 0, _, _ => pure []
  | rounds + 1, tot, off =>
    if tot < n then do
      let b ← bmapWith alloc ip (off / bSize)
      let m := min (n - tot) (bSize - off % bSize)
      let d ← look fun v => v.block b
      let rest ← readLoopWith ip n rounds (tot + m) (off + m)
      pure ((List.range m).map (fun i => byteAt d (off % bSize + i)) ++ rest)
    else
      pure []

def readiWith (devsw : Devices) (ip : Slot) (off n : BitVec 32) :
    VolumeM (ℤ × List (BitVec 8)) := do
  let x ← look fun v => v.inode ip
  if x.type = tDev then
    if badMajor x.major then
      pure (-1, [])
    else
      match devsw.read x.major.toNat with
      | none => pure (-1, [])
      | some read => pure (read n.toNat)
  else if x.size < off ∨ off + n < off then
    pure (-1, [])
  else
    let n := if x.size < off + n then x.size - off else n
    let bytes ← readLoopWith alloc ip n.toNat n.toNat 0 off.toNat
    pure (n.toNat, bytes)

end Allocator

section Reads

variable {alloc : VolumeM ℕ} {devsw : Devices}

theorem readLoopWith_balloc (n rounds tot off : ℕ) :
    readLoopWith (balloc sb) ip n rounds tot off = readLoop sb ip n rounds tot off := by
  induction rounds generalizing tot off with
  | zero => rfl
  | succ rounds ih =>
    simp only [readLoopWith, readLoop, ih]
    rfl

theorem readiWith_balloc (off n : BitVec 32) :
    readiWith (balloc sb) devsw ip off n = readi sb devsw ip off n := by
  have hloop : readLoopWith (balloc sb) ip = readLoop sb ip := by
    funext n rounds tot off
    exact readLoopWith_balloc n rounds tot off
  unfold readiWith
  rw [hloop]
  rfl

theorem addrOrWith_there (ho : Opened sb T ip v) {k : Fin (nDirect + 1)} {b : ℕ}
    (hb : addrTarget sb T (v.inode ip).inum k = some b) : addrOrWith alloc ip k v = (.ok b, v) := by
  have hcopy : (v.inode ip).addrs k = (T (v.inode ip).inum).addrs k := by rw [← ho.copy]
  rw [addrTarget, if_pos ho.inum_lt, Dinode.pointer, if_neg ho.type_ne, pointer_eq_some,
    ← hcopy] at hb
  show (if (v.inode ip).addrs k = 0 then _ else pure ((v.inode ip).addrs k).toNat : VolumeM ℕ) v = _
  rw [if_neg hb.1, hb.2]
  rfl

theorem entryOrWith_there {i a b : ℕ} {j : Fin nIndirect}
    (ha : addrTarget sb T i indirectSlot = some a)
    (hb : target sb T v.block (.entry i j) = some b) :
    entryOrWith alloc a j v = (.ok b, v) := by
  rw [target, ha, Option.bind_some, pointer_eq_some] at hb
  show (if wordAt (v.block a) j = 0 then _ else pure (wordAt (v.block a) j).toNat : VolumeM ℕ) v = _
  rw [if_neg hb.1, hb.2]
  rfl

theorem bmapWith_there (ho : Opened sb T ip v) {bn b : ℕ}
    (hb : blockTarget sb T v.block (v.inode ip).inum bn = some b) :
    bmapWith alloc ip bn v = (.ok b, v) := by
  unfold bmapWith
  unfold blockTarget at hb
  split_ifs at hb ⊢ with hdirect hindirect
  · exact addrOrWith_there ho hb
  · obtain ⟨a, ha, -⟩ := Option.bind_eq_some_iff.1 hb
    rw [bind_of_ok (addrOrWith_there ho ha)]
    exact entryOrWith_there (j := ⟨bn - nDirect, hindirect⟩) ha hb

theorem readLoopWith_there (ho : Opened sb T ip v)
    (hnoHole : NoHole sb T v.block (v.inode ip).inum) (n rounds : ℕ) :
    ∀ tot off, n - tot ≤ rounds → off + (n - tot) ≤ (T (v.inode ip).inum).size.toNat →
      readLoopWith alloc ip n rounds tot off v = (.ok ((List.range (n - tot)).map fun i =>
          (byteOf sb T v.block (v.inode ip).inum (off + i)).getD 0), v) := by
  induction rounds with
  | zero =>
    intro tot off hrounds _
    rw [Nat.le_zero.1 hrounds]
    rfl
  | succ rounds ih =>
    intro tot off hrounds hoff
    by_cases htot : tot < n
    · have hbn : off / bSize * bSize < (T (v.inode ip).inum).size.toNat :=
        Nat.lt_of_le_of_lt (Nat.div_mul_le_self off bSize) (by omega)
      obtain ⟨b, hb⟩ := Option.ne_none_iff_exists'.1 (hnoHole _ hbn)
      have hmod := Nat.mod_lt off (show 0 < bSize by decide)
      generalize hm : min (n - tot) (bSize - off % bSize) = m
      have hsplit : n - tot = m + (n - (tot + m)) := by omega
      rw [readLoopWith, if_pos htot, bind_of_ok (bmapWith_there ho hb)]
      simp only [hm]
      refine (bind_of_ok (x := look _) rfl).trans
        ((bind_of_ok (ih (tot + m) (off + m) (by omega) (by omega))).trans ?_)
      refine congrArg (fun bytes => (Except.ok bytes, v)) ?_
      rw [hsplit, range_add, map_append, map_map]
      refine congrArg₂ (· ++ ·) (map_congr_left fun i hi => ?_) (map_congr_left fun i _ => ?_)
      · have hi := mem_range.1 hi
        rw [byteOf_add hb (by omega), Option.getD_some]
      · rw [Function.comp_apply, Nat.add_assoc]
    · rw [readLoopWith, if_neg htot, Nat.sub_eq_zero_of_le (Nat.not_lt.1 htot)]
      rfl

theorem toNat_add_of_not_lt {off n : BitVec 32} (h : ¬ off + n < off) :
    (off + n).toNat = off.toNat + n.toNat := by
  have hle := BitVec.not_lt.1 h
  rw [BitVec.le_def, BitVec.toNat_add] at hle
  rw [BitVec.toNat_add]
  omega

theorem wraps_iff {off n : BitVec 32} : off + n < off ↔ 2 ^ 32 ≤ off.toNat + n.toNat := by
  rw [BitVec.lt_def, BitVec.toNat_add]
  omega

theorem readi_count {size off n : BitVec 32} (hoff : ¬ size < off) (hwrap : ¬ off + n < off) :
    (if size < off + n then size - off else n).toNat = min n.toNat (size.toNat - off.toNat) := by
  have hle := BitVec.not_lt.1 hoff
  have hadd := toNat_add_of_not_lt hwrap
  split_ifs with hlt
  · rw [BitVec.lt_def, hadd] at hlt
    rw [BitVec.toNat_sub_of_le hle]
    omega
  · rw [BitVec.lt_def, hadd] at hlt
    omega

/-- The answers of `readi`, for a file as a sequence of bytes. -/
def readBytes (D : List (BitVec 8)) (off n : ℕ) : Option (List (BitVec 8)) :=
  if D.length < off ∨ 2 ^ 32 ≤ off + n then none else some ((D.drop off).take n)

def readResult : Option (List (BitVec 8)) → ℤ × List (BitVec 8)
  | none => (-1, [])
  | some bytes => (bytes.length, bytes)

def deviceRead (devsw : Devices) (major : BitVec 16) (n : ℕ) : ℤ × List (BitVec 8) :=
  if badMajor major then (-1, []) else
    match devsw.read major.toNat with
    | none => (-1, [])
    | some read => read n

theorem take_drop_contents {block : ℕ → Block} {i off n : ℕ} (h : off + n ≤ (T i).size.toNat) :
    ((contents sb T block i).drop off).take n =
      (List.range n).map fun k => (byteOf sb T block i (off + k)).getD 0 := by
  have hlen := length_contents sb T block i
  refine ext_getElem (by simp [hlen]; omega) fun k hk hk' => ?_
  rw [getElem_take, getElem_drop, getElem_contents, getElem_map, getElem_range]

theorem readiWith_there (ho : Opened sb T ip v)
    (hnoHole : (v.inode ip).type ≠ tDev → NoHole sb T v.block (v.inode ip).inum)
    (off n : BitVec 32) :
    readiWith alloc devsw ip off n v = (.ok (if (v.inode ip).type = tDev then
      deviceRead devsw (v.inode ip).major n.toNat else readResult (readBytes
        (contents sb T v.block (v.inode ip).inum) off.toNat n.toNat)), v) := by
  have hlen := length_contents sb T v.block (v.inode ip).inum
  have hcopy := ho.copy
  rw [readiWith, bind_of_ok (x := look _) rfl]
  by_cases hdev : (v.inode ip).type = tDev
  · -- a device is read without its blocks
    rw [if_pos hdev, if_pos hdev, deviceRead]
    split_ifs with hbad
    · rfl
    · cases devsw.read (v.inode ip).major.toNat <;> rfl
  · rw [if_neg hdev, if_neg hdev, readBytes, hlen, ← hcopy]
    by_cases hrange : (v.inode ip).size < off ∨ off + n < off
    · rw [if_pos hrange, if_pos (by rwa [BitVec.lt_def, wraps_iff] at hrange)]
      rfl
    · obtain ⟨hoff, hwrap⟩ := not_or.1 hrange
      have hcount := readi_count hoff hwrap
      have hrange' := hrange
      rw [BitVec.lt_def, wraps_iff] at hrange'
      rw [if_neg hrange, if_neg hrange']
      have hle := BitVec.le_def.1 (BitVec.not_lt.1 hoff)
      generalize (if (v.inode ip).size < off + n then (v.inode ip).size - off else n) = m
        at hcount ⊢
      rw [hcopy] at hcount hle
      have htake : ((contents sb T v.block (v.inode ip).inum).drop off.toNat).take n.toNat =
          ((contents sb T v.block (v.inode ip).inum).drop off.toNat).take m.toNat := by
        rw [take_eq_take_iff, length_drop, hlen]
        omega
      have hbytes : ((contents sb T v.block (v.inode ip).inum).drop off.toNat).take m.toNat = _ :=
        take_drop_contents (by omega)
      refine (bind_of_ok (readLoopWith_there ho (hnoHole hdev) _ _ 0 _ (Nat.le_refl _)
        (by omega))).trans ?_
      rw [htake, hbytes, readResult, length_map, length_range]
      rfl

end Reads

end Xv6.FileSystem
