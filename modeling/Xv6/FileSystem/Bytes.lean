import Xv6.FileSystem.Inodes

/-!
# The bytes of a file

`byteOf` finds a byte of a file through the block map, and `contents` has the bytes below the
size. Two files have no block in common, so a store into one of them is seen in the bytes that
it overwrites and nowhere else, and a block that is allocated meanwhile is seen nowhere at all.
-/

namespace Xv6.FileSystem

open ByteBlock Option Nat

variable {block : ℕ → Block}

def byteOf (sb : Superblock) (T : Table) (block : ℕ → Block) (i k : ℕ) : Option (BitVec 8) :=
  (blockTarget sb T block i (k / bSize)).map fun b => byteAt (block b) (k % bSize)

def contents (sb : Superblock) (T : Table) (block : ℕ → Block) (i : ℕ) : List (BitVec 8) :=
  (List.range (T i).size.toNat).map fun k => (byteOf sb T block i k).getD 0

variable {sb : Superblock} {T T' : Table} {v v' : Volume} {ip : Slot} {lo hi : ℕ}
  {data : ℕ → BitVec 8}

theorem length_contents (sb : Superblock) (T : Table) (block : ℕ → Block) (i : ℕ) :
    (contents sb T block i).length = (T i).size.toNat := by
  rw [contents, List.length_map, List.length_range]

theorem getElem_contents {i k : ℕ} (hk : k < (contents sb T block i).length) :
    (contents sb T block i)[k] = (byteOf sb T block i k).getD 0 := by
  simp only [contents, List.getElem_map, List.getElem_range]

theorem contents_congr {block block' : ℕ → Block} {i : ℕ} (hsize : (T' i).size = (T i).size)
    (hbyte : ∀ k, byteOf sb T' block' i k = byteOf sb T block i k) :
    contents sb T' block' i = contents sb T block i := by
  simp only [contents, hsize, hbyte]

theorem byteOf_add {i off m b : ℕ}
    (hb : blockTarget sb T block i (off / bSize) = some b) (hm : off % bSize + m < bSize) :
    byteOf sb T block i (off + m) = some (byteAt (block b) (off % bSize + m)) := by
  have hdiv : (off + m) / bSize = off / bSize ∧ (off + m) % bSize = off % bSize + m := by
    simp only [bSize] at hm ⊢
    omega
  rw [byteOf, hdiv.1, hdiv.2, hb, map_some]

theorem slotOf_inj {i j : ℕ} (hi : i < nDirect) (hj : j < nDirect) (h : slotOf i = slotOf j) :
    i = j := by
  have hval : i % (nDirect + 1) = j % (nDirect + 1) := congrArg Fin.val h
  rwa [mod_eq_of_lt (lt_succ_of_lt hi), mod_eq_of_lt (lt_succ_of_lt hj)] at hval

theorem blockTarget_inj (hledger : Ledger sb T ∅ block) {i j bn bm b : ℕ}
    (h : blockTarget sb T block i bn = some b) (h' : blockTarget sb T block j bm = some b) :
    i = j ∧ bn = bm := by
  unfold blockTarget at h h'
  split_ifs at h h' with hn hn' hm
  · obtain ⟨rfl, hslot⟩ := Place.addr.inj (hledger.owned.inj _ _ b h h')
    exact ⟨rfl, slotOf_inj hn hn' hslot⟩
  · cases hledger.owned.inj _ _ b h h'
  · cases hledger.owned.inj _ _ b h h'
  · obtain ⟨rfl, hentry⟩ := Place.entry.inj (hledger.owned.inj _ _ b h h')
    have hval := Fin.mk.inj hentry
    exact ⟨rfl, by omega⟩

theorem Grown.keeps_block (h : Grown sb ip v T v' T') {i bn : ℕ}
    (hbn : blockTarget sb T v.block i bn ≠ none) : blockTarget sb T' v'.block i bn ≠ none := by
  obtain ⟨b, hb⟩ := ne_none_iff_exists'.1 hbn
  rw [h.keeps_blockTarget hb]
  exact some_ne_none b

theorem Grown.write (ho : Opened sb T ip v) (hledger : Ledger sb T ∅ v.block) {i bn b : ℕ}
    (hb : blockTarget sb T v.block i bn = some b) (f : Block → Block) :
    Grown sb ip v T (v.modifyBlock b f) T := by
  obtain ⟨p, hp, hdirect⟩ := exists_of_blockTarget hb
  have hdata := hledger.mem_data hp
  have hframe := sameFiles_data (D := {b}) v hdata (Set.mem_singleton b) f
  refine ⟨hledger.writeData hp hdirect, fun _ _ => rfl, rfl, fun _ _ => rfl, ?_, hframe.dinode, ?_,
    fun q _ => hledger.target_writeData hp hdirect q⟩
  · rw [← ho.copy]
    rfl
  · intro q c hq
    rw [← hq]
    exact hledger.target_writeData hp hdirect q

/-- The inode of slot `ip` has been given blocks and the bytes from `lo` to `hi`, and every other
byte that was there is what it was. -/
structure Wrote (sb : Superblock) (ip : Slot) (lo hi : ℕ) (data : ℕ → BitVec 8) (v : Volume)
    (T : Table) (v' : Volume) (T' : Table) : Prop where
  grown : Grown sb ip v T v' T'
  inside : ∀ k, lo ≤ k → k < hi → byteOf sb T' v'.block (v.inode ip).inum k = some (data k)
  outside : ∀ j k x, (j = (v.inode ip).inum → k < lo ∨ hi ≤ k) →
    byteOf sb T v.block j k = some x → byteOf sb T' v'.block j k = some x

namespace Wrote

theorem of_kept (hgrown : Grown sb ip v T v' T') (hkept : Kept sb T v v') (off : ℕ) :
    Wrote sb ip off off data v T v' T' := by
  refine ⟨hgrown, fun k hlo hhi => absurd hhi (not_lt.2 hlo), fun j k x _ hx => ?_⟩
  obtain ⟨b, hb, rfl⟩ := map_eq_some_iff.1 hx
  rw [byteOf, hgrown.keeps_blockTarget hb, map_some, hkept j _ b hb]

theorem store (ho : Opened sb T ip v) (hledger : Ledger sb T ∅ v.block) {off m b : ℕ}
    (hb : blockTarget sb T v.block (v.inode ip).inum (off / bSize) = some b)
    (hm : off % bSize + m ≤ bSize) (src : ℕ → BitVec 8) (hsrc : ∀ i < m, data (off + i) = src i) :
    Wrote sb ip off (off + m) data v T
      (v.modifyBlock b fun d => ByteBlock.store d (off % bSize) m src) T := by
  have hgrown := Grown.write ho hledger hb fun d => ByteBlock.store d (off % bSize) m src
  refine ⟨hgrown, fun k hlo hhi => ?_, fun j k x hout hx => ?_⟩
  · obtain ⟨i, rfl⟩ := Nat.exists_eq_add_of_le hlo
    have hi : i < m := Nat.lt_of_add_lt_add_left hhi
    rw [byteOf_add (hgrown.keeps_blockTarget hb) (by omega), v.modifyBlock_block_self,
      byteAt_store_inside _ _ hi (by omega), hsrc i hi]
  · obtain ⟨c, hc, rfl⟩ := map_eq_some_iff.1 hx
    rw [byteOf, hgrown.keeps_blockTarget hc, map_some]
    refine congrArg some ?_
    by_cases hcb : c = b
    · -- the same block: then it is another byte of it
      subst hcb
      obtain ⟨hj, hk⟩ := blockTarget_inj hledger hc hb
      have hbyte : k % bSize < off % bSize ∨ off % bSize + m ≤ k % bSize := by
        have hor := hout hj
        simp only [bSize] at hk hor hm ⊢
        omega
      rw [v.modifyBlock_block_self, byteAt_store_outside _ _ hbyte]
    · rw [v.modifyBlock_block_of_ne _ hcb]

theorem trans {mid : ℕ} {v'' : Volume} {T'' : Table} (hlo : lo ≤ mid) (hhi : mid ≤ hi)
    (h : Wrote sb ip lo mid data v T v' T') (h' : Wrote sb ip mid hi data v' T' v'' T'') :
    Wrote sb ip lo hi data v T v'' T'' := by
  have hinum := h.grown.inum
  refine ⟨h.grown.trans h'.grown, fun k hk hk' => ?_, fun j k x hout hx => ?_⟩
  · rcases lt_or_ge k mid with hfirst | hsecond
    · exact h'.outside _ k _ (fun _ => .inl hfirst) (h.inside k hk hfirst)
    · rw [← hinum]
      exact h'.inside k hsecond hk'
  · refine h'.outside j k x (fun hj => ?_) (h.outside j k x (fun hj => ?_) hx)
    · omega
    · omega

theorem byteOf_other (h : Wrote sb ip lo hi data v T v' T') {j : ℕ} (hj : j ≠ (v.inode ip).inum)
    (k : ℕ) : byteOf sb T' v'.block j k = byteOf sb T v.block j k := by
  cases hx : byteOf sb T v.block j k with
  | some x => exact h.outside j k x (fun heq => absurd heq hj) hx
  | none =>
    rw [byteOf, map_eq_none_iff] at hx ⊢
    rw [h.grown.blockTarget_other hj, hx]

theorem contents_other (h : Wrote sb ip lo hi data v T v' T') {j : ℕ} (hj : j ≠ (v.inode ip).inum) :
    contents sb T' v'.block j = contents sb T v.block j :=
  contents_congr (by rw [h.grown.table_other j hj]) (h.byteOf_other hj)

end Wrote

theorem Paid.write (hledger : Ledger sb T ∅ v.block) {i bn b : ℕ}
    (hb : blockTarget sb T v.block i bn = some b) (f : Block → Block) (P : Finset Place) :
    Paid sb P v T (v.modifyBlock b f) T := by
  obtain ⟨p, hp, hdirect⟩ := exists_of_blockTarget hb
  have hfree : freeBlocks sb (v.modifyBlock b f).block = freeBlocks sb v.block := by
    refine congrArg Finset.card (Finset.filter_congr fun c hc => ?_)
    exact (congrArg (· = false)
      (marked_update_data (hledger.mem_data hp) (Finset.mem_range.1 hc))).to_iff
  have hmissing : missing sb T (v.modifyBlock b f).block P = missing sb T v.block P := by
    refine congrArg Finset.card (Finset.filter_congr fun q _ => ?_)
    exact (congrArg (· = none) (hledger.target_writeData hp hdirect q)).to_iff
  rw [Paid, hfree, hmissing]

end Xv6.FileSystem
