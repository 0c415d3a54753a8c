import Xv6.FileSystem.Model
import Xv6.Library.Ownership

/-!
# Who refers to a data block

An inode refers to blocks through its addresses, and an inode with an indirect
block refers to more blocks through the words of that block. A `Table` gives
the inode of each number. Between two calls it is the one on the disk. In the
middle of a call it is what the running routine makes of it: the inode it is
writing is the one in memory.

`Ledger sb T loose block` says that the bitmap marks the metadata blocks and, of
the data blocks, exactly those that one place of the table refers to or that the
running routine has in hand. The lemmas follow the single assignments of the
source: mark and zero a block, store its address, clear a bit.
-/

namespace Xv6.FileSystem

open ByteBlock Ownership Function Option Nat Superblock

abbrev Table := ℕ → Dinode

/-- Where a block number can be stored: an address of an inode, or a word of
its indirect block. -/
inductive Place where
  | addr (i : ℕ) (k : Fin (nDirect + 1))
  | entry (i : ℕ) (j : Fin nIndirect)
  deriving DecidableEq

def pointer (w : BitVec 32) : Option ℕ := if w = 0 then none else some w.toNat

def Dinode.pointer (x : Dinode) (k : Fin (nDirect + 1)) : Option ℕ :=
  if x.type = 0 then none else FileSystem.pointer (x.addrs k)

def addrTarget (sb : Superblock) (T : Table) (i : ℕ) (k : Fin (nDirect + 1)) : Option ℕ :=
  if i < sb.ninodes then (T i).pointer k else none

def target (sb : Superblock) (T : Table) (block : ℕ → Block) : Place → Option ℕ
  | .addr i k => addrTarget sb T i k
  | .entry i j =>
    (addrTarget sb T i indirectSlot).bind fun b => pointer (wordAt (block b) j)

def marked (sb : Superblock) (block : ℕ → Block) (b : ℕ) : Bool :=
  bitAt (block (sb.bblock b)) (b % bpb)

def inUse (sb : Superblock) (block : ℕ → Block) : Set ℕ :=
  {b | b ∈ sb.data ∧ marked sb block b = true}

/-- The free map agrees with the references of a table. -/
structure Ledger (sb : Superblock) (T : Table) (loose : Set ℕ) (block : ℕ → Block) : Prop where
  owned : Owned (inUse sb block) loose (target sb T block)
  metadata : ∀ b < sb.nmeta, marked sb block b = true

def Dinode.setAddr (x : Dinode) (k : Fin (nDirect + 1)) (w : BitVec 32) : Dinode :=
  { x with addrs := update x.addrs k w }

def Volume.dinode (sb : Superblock) (v : Volume) (i : ℕ) : Dinode :=
  dinodeAt (v.block (sb.iblock i)) (i % ipb)

theorem pointer_eq_some {w : BitVec 32} {b : ℕ} : pointer w = some b ↔ w ≠ 0 ∧ w.toNat = b := by
  rw [pointer, ite_none_left_eq_some, some_inj]

theorem pointer_eq_none {w : BitVec 32} : pointer w = none ↔ w = 0 := by
  rw [pointer, ite_eq_left_iff]
  exact ⟨fun h => not_not.1 fun hw => some_ne_none _ (h hw), fun h hw => absurd h hw⟩

@[simp] theorem pointer_zero : pointer 0 = none := rfl

theorem Dinode.pointer_of_addrs {x : Dinode} {k : Fin (nDirect + 1)} (h : x.addrs k = 0) :
    x.pointer k = none := by
  rw [Dinode.pointer, h, pointer_zero, ite_self]

theorem pointer_ofNat {sb : Superblock} {b : ℕ} (hb : b ∈ sb.data) :
    pointer (BitVec.ofNat 32 b) = some b := by
  have hlt : b < 2 ^ 32 := lt_trans (lt_trans hb.2 sb.size_lt) (by decide)
  have hnat : (BitVec.ofNat 32 b).toNat = b := by
    rw [BitVec.toNat_ofNat, mod_eq_of_lt hlt]
  rw [pointer_eq_some]
  refine ⟨fun hzero => ?_, hnat⟩
  rw [hzero] at hnat
  exact ne_of_gt (pos_of_mem_data hb) hnat.symm

section Marks

variable {sb : Superblock} {block : ℕ → Block} {b c : ℕ} {d : Block}

theorem eq_of_bblock_eq (h : sb.bblock c = sb.bblock b) (hmod : c % bpb = b % bpb) : c = b := by
  have hdiv : c / bpb = b / bpb := add_right_cancel h
  rw [← div_add_mod c bpb, ← div_add_mod b bpb, hdiv, hmod]

theorem marked_update_of_ne (h : sb.bblock c ≠ b) :
    marked sb (update block b d) c = marked sb block c := by
  rw [marked, update_of_ne h, marked]

theorem mod_bpb_lt (b : ℕ) : b % bpb < 8 * bSize :=
  mod_lt b (by decide)

theorem marked_setBit :
    marked sb (update block (sb.bblock b) (setBit (block (sb.bblock b)) (b % bpb))) c =
      (decide (c = b) || marked sb block c) := by
  by_cases h : sb.bblock c = sb.bblock b
  · have hiff : c % bpb = b % bpb ↔ c = b :=
      ⟨eq_of_bblock_eq h, fun hcb => by rw [hcb]⟩
    simp only [marked, h, update_self]
    rw [bitAt_setBit _ (mod_bpb_lt b)]
    simp only [hiff]
  · have hne : c ≠ b := fun hcb => h (by rw [hcb])
    rw [marked_update_of_ne h]
    simp [hne]

theorem marked_clearBit :
    marked sb (update block (sb.bblock b) (clearBit (block (sb.bblock b)) (b % bpb))) c =
      (!decide (c = b) && marked sb block c) := by
  by_cases h : sb.bblock c = sb.bblock b
  · have hiff : c % bpb = b % bpb ↔ c = b :=
      ⟨eq_of_bblock_eq h, fun hcb => by rw [hcb]⟩
    simp only [marked, h, update_self]
    rw [bitAt_clearBit _ (mod_bpb_lt b)]
    simp only [hiff]
  · have hne : c ≠ b := fun hcb => h (by rw [hcb])
    rw [marked_update_of_ne h]
    simp [hne]

theorem marked_update_data (hb : b ∈ sb.data) (hc : c < sb.size) :
    marked sb (update block b d) c = marked sb block c :=
  marked_update_of_ne (bblock_ne_of_mem_data hc hb)

theorem marked_update_iblock {i : ℕ} (hi : i < sb.ninodes) :
    marked sb (update block (sb.iblock i) d) c = marked sb block c :=
  marked_update_of_ne (iblock_ne_bblock hi).symm

end Marks

section Targets

variable {sb : Superblock} {T T' : Table} {block block' : ℕ → Block} {i : ℕ}

theorem target_congr (hT : ∀ i k, addrTarget sb T' i k = addrTarget sb T i k)
    (hblock : ∀ i b, addrTarget sb T i indirectSlot = some b → block' b = block b) (p : Place) :
    target sb T' block' p = target sb T block p := by
  cases p with
  | addr i k => exact hT i k
  | entry i j =>
    simp only [target, hT]
    cases hb : addrTarget sb T i indirectSlot with
    | none => rfl
    | some b => simp only [bind_some, hblock i b hb]

theorem addrTarget_update_of_ne {j : ℕ} (x : Dinode) (h : j ≠ i) (k : Fin (nDirect + 1)) :
    addrTarget sb (update T i x) j k = addrTarget sb T j k := by
  simp only [addrTarget, update_of_ne h]

theorem addrTarget_update_self (x : Dinode) (hi : i < sb.ninodes) (k : Fin (nDirect + 1)) :
    addrTarget sb (update T i x) i k = x.pointer k := by
  simp only [addrTarget, update_self, if_pos hi]

theorem addrTarget_update_of_addrs {x : Dinode} (hi : i < sb.ninodes)
    (htype : x.type = (T i).type) (haddrs : x.addrs = (T i).addrs) (j : ℕ)
    (k : Fin (nDirect + 1)) : addrTarget sb (update T i x) j k = addrTarget sb T j k := by
  by_cases hj : j = i
  · rw [hj, addrTarget_update_self _ hi, addrTarget, if_pos hi, Dinode.pointer, Dinode.pointer,
      htype, haddrs]
  · rw [addrTarget_update_of_ne _ hj]

end Targets

namespace Ledger

variable {sb : Superblock} {T T' : Table} {loose : Set ℕ} {block : ℕ → Block} {b i : ℕ}
  {p : Place} {d : Block}

section

variable (h : Ledger sb T loose block)
include h

theorem mem_data (hp : target sb T block p = some b) : b ∈ sb.data :=
  (h.owned.used_of_ref hp).1

theorem loose_mem_data (hb : b ∈ loose) : b ∈ sb.data :=
  (h.owned.used_of_loose hb).1

theorem congr {block' : ℕ → Block} (hmarked : ∀ c < sb.size, marked sb block' c = marked sb block c)
    (htarget : ∀ q, target sb T' block' q = target sb T block q) : Ledger sb T' loose block' where
  owned := h.owned.congr (fun c => and_congr_right fun hc => by rw [hmarked c hc.2]) htarget
  metadata c hc := by
    rw [hmarked c (lt_of_lt_of_le hc (sub_le _ _)), h.metadata c hc]

theorem retable (hT : ∀ i k, addrTarget sb T' i k = addrTarget sb T i k) :
    Ledger sb T' loose block :=
  h.congr (fun _ _ => rfl) (target_congr hT fun _ _ _ => rfl)

theorem writeInodes (hi : i < sb.ninodes) : Ledger sb T loose (update block (sb.iblock i) d) :=
  h.congr (fun _ _ => marked_update_iblock hi)
    (target_congr (fun _ _ => rfl) fun j _ hc => update_of_ne
      (iblock_ne_of_mem_data hi (h.mem_data (p := .addr j indirectSlot) hc)).symm ..)

/-- The block of an indirect slot has no second owner, so a write to a data block is not seen at
the places. -/
theorem target_writeData (hp : target sb T block p = some b)
    (hdirect : ∀ i, p ≠ .addr i indirectSlot) (q : Place) :
    target sb T (update block b d) q = target sb T block q := by
  have hother : ∀ j c, addrTarget sb T j indirectSlot = some c → update block b d c = block c := by
    intro j c hc
    refine update_of_ne ?_ ..
    rintro rfl
    exact hdirect j (h.owned.inj p (.addr j indirectSlot) c hp hc)
  exact target_congr (fun _ _ => rfl) hother q

theorem writeData (hp : target sb T block p = some b) (hdirect : ∀ i, p ≠ .addr i indirectSlot) :
    Ledger sb T loose (update block b d) :=
  h.congr (fun _ hc => marked_update_data (h.mem_data hp) hc) (h.target_writeData hp hdirect)

theorem take (hb : b ∈ sb.data) (hfree : marked sb block b = false) :
    Ledger sb T (insert b loose) (update
      (update block (sb.bblock b) (setBit (block (sb.bblock b)) (b % bpb))) b d) := by
  have hnot : b ∉ inUse sb block := fun hused => by
    simp [hused.2] at hfree
  have hmarked : ∀ c < sb.size, marked sb (update
      (update block (sb.bblock b) (setBit (block (sb.bblock b)) (b % bpb))) b d) c =
        (decide (c = b) || marked sb block c) := fun c hc => by
    rw [marked_update_data hb hc, marked_setBit]
  constructor
  · refine (h.owned.take hnot).congr (fun c => ?_) (target_congr (fun _ _ => rfl) fun j c hc => ?_)
    · constructor
      · rintro ⟨hc, hc'⟩
        rw [hmarked c hc.2, Bool.or_eq_true, decide_eq_true_eq] at hc'
        exact hc'.imp_right fun hc' => ⟨hc, hc'⟩
      · rintro (rfl | ⟨hc, hc'⟩)
        · exact ⟨hb, by simp [hmarked c hb.2]⟩
        · exact ⟨hc, by simp [hmarked c hc.2, hc']⟩
    · have hcb : c ≠ b := by
        rintro rfl
        exact h.owned.ref_ne_of_notMem hnot (.addr j indirectSlot) hc
      have hcdata := h.mem_data (p := .addr j indirectSlot) hc
      rw [update_of_ne hcb, update_of_ne (bblock_ne_of_mem_data hb.2 hcdata).symm]
  · intro c hc
    rw [hmarked c (lt_of_lt_of_le hc (sub_le _ _)), h.metadata c hc, Bool.or_true]

theorem marked_of_loose (hb : b ∈ loose) : marked sb block b = true :=
  (h.owned.used_of_loose hb).2

theorem release (hb : b ∈ loose) :
    Ledger sb T (loose \ {b})
      (update block (sb.bblock b) (clearBit (block (sb.bblock b)) (b % bpb))) := by
  have hdata := h.loose_mem_data hb
  constructor
  · refine (h.owned.release hb).congr (fun c => ?_) (target_congr (fun _ _ => rfl) fun j c hc => ?_)
    · simp only [inUse, Set.mem_ofPred_eq, Set.mem_sdiff, Set.mem_singleton_iff, marked_clearBit,
        Bool.and_eq_true, Bool.not_eq_true', decide_eq_false_iff_not]
      rw [and_assoc, and_comm (a := ¬ c = b)]
    · exact update_of_ne (bblock_ne_of_mem_data hdata.2
        (h.mem_data (p := .addr j indirectSlot) hc)).symm ..
  · intro c hc
    have hne : c ≠ b := by
      rintro rfl
      exact absurd hdata.1 (not_le.2 hc)
    simp [marked_clearBit, hne, h.metadata c hc]

end

section Store

variable {k : Fin (nDirect + 1)} {w : BitVec 32}

theorem addrTarget_setAddr (hi : i < sb.ninodes) (htype : (T i).type ≠ 0) (l : Fin (nDirect + 1)) :
    addrTarget sb (update T i ((T i).setAddr k w)) i l =
      if l = k then pointer w else addrTarget sb T i l := by
  have htype' : ((T i).setAddr k w).type ≠ 0 := htype
  rw [addrTarget_update_self _ hi, Dinode.pointer, if_neg htype', addrTarget, if_pos hi,
    Dinode.pointer, if_neg htype]
  simp only [Dinode.setAddr, update_apply]
  split_ifs <;> rfl

/-- Changing one address of an inode is not seen at the other places, except at
the words of the indirect block when it is that one's address. -/
theorem target_setAddr_of_ne (hi : i < sb.ninodes) (htype : (T i).type ≠ 0) {q : Place}
    (hq : q ≠ .addr i k) (hentry : k = indirectSlot → ∀ j, q ≠ .entry i j) :
    target sb (update T i ((T i).setAddr k w)) block q = target sb T block q := by
  cases q with
  | addr j l =>
    by_cases hji : j = i
    · subst hji
      have hl : l ≠ k := fun hl => hq (by rw [hl])
      simp only [target]
      rw [addrTarget_setAddr hi htype, if_neg hl]
    · exact addrTarget_update_of_ne _ hji l
  | entry j n =>
    have hsame : addrTarget sb (update T i ((T i).setAddr k w)) j indirectSlot =
        addrTarget sb T j indirectSlot := by
      by_cases hji : j = i
      · subst hji
        have hk : indirectSlot ≠ k := fun hk => hentry hk.symm n rfl
        rw [addrTarget_setAddr hi htype, if_neg hk]
      · exact addrTarget_update_of_ne _ hji _
    simp only [target, hsame]

/-- Storing the address of a zeroed block in an empty slot is seen there only: a fresh indirect
block lists nothing, as before there was none. -/
theorem target_linkAddr (hb : b ∈ sb.data) (hi : i < sb.ninodes) (htype : (T i).type ≠ 0)
    (hk : (T i).addrs k = 0) (hzero : ∀ j, wordAt (block b) j = 0) (q : Place) :
    target sb (update T i ((T i).setAddr k (BitVec.ofNat 32 b))) block q =
      if q = .addr i k then some b else target sb T block q := by
  have hempty : addrTarget sb T i k = none := by
    rw [addrTarget, if_pos hi, Dinode.pointer, if_neg htype, hk, pointer_zero]
  have hself : addrTarget sb (update T i ((T i).setAddr k (BitVec.ofNat 32 b))) i k = some b := by
    rw [addrTarget_setAddr hi htype, if_pos rfl, pointer_ofNat hb]
  by_cases hq : q = .addr i k
  · rw [if_pos hq, hq, target, hself]
  · rw [if_neg hq]
    by_cases hentry : k = indirectSlot ∧ ∃ j, q = .entry i j
    · obtain ⟨rfl, j, rfl⟩ := hentry
      simp only [target, hself, hempty, bind_some, bind_none, hzero, pointer_zero]
    · exact target_setAddr_of_ne hi htype hq fun hk j hj => hentry ⟨hk, j, hj⟩

theorem linkAddr (h : Ledger sb T loose block) (hb : b ∈ loose) (hi : i < sb.ninodes)
    (htype : (T i).type ≠ 0) (hk : (T i).addrs k = 0) (hzero : ∀ j, wordAt (block b) j = 0) :
    Ledger sb (update T i ((T i).setAddr k (BitVec.ofNat 32 b))) (loose \ {b}) block := by
  have hempty : target sb T block (.addr i k) = none := by
    rw [target, addrTarget, if_pos hi, Dinode.pointer, if_neg htype, hk, pointer_zero]
  have htarget := target_linkAddr (h.loose_mem_data hb) hi htype hk hzero
  refine ⟨h.owned.link (p := .addr i k) hb hempty ?_ ?_, h.metadata⟩
  · rw [htarget, if_pos rfl]
  · intro q hq
    rw [htarget, if_neg hq]

def through (sb : Superblock) (T : Table) (block : ℕ → Block) (i : ℕ)
    (k : Fin (nDirect + 1)) : Set ℕ :=
  {b | ∃ p, (p = .addr i k ∨ k = indirectSlot ∧ ∃ j, p = .entry i j) ∧ target sb T block p = some b}

theorem unlinkAddr (h : Ledger sb T loose block) (hi : i < sb.ninodes) (htype : (T i).type ≠ 0) :
    Ledger sb (update T i ((T i).setAddr k 0)) (loose ∪ through sb T block i k) block := by
  have hself : addrTarget sb (update T i ((T i).setAddr k 0)) i k = none := by
    rw [addrTarget_setAddr hi htype, if_pos rfl, pointer_zero]
  refine ⟨h.owned.unlink {p | p = .addr i k ∨ k = indirectSlot ∧ ∃ j, p = .entry i j} ?_ ?_,
    h.metadata⟩
  · rintro q (rfl | ⟨rfl, j, rfl⟩)
    · exact hself
    · simp only [target, hself, bind_none]
  · intro q hq
    exact target_setAddr_of_ne hi htype (fun h => hq (.inl h))
      fun hk j hj => hq (.inr ⟨hk, j, hj⟩)

section Entry

variable {a : ℕ} {j : Fin nIndirect}

theorem target_setWord_self (block : ℕ → Block) (j : Fin nIndirect) (w : BitVec 32)
    (ha : addrTarget sb T i indirectSlot = some a) :
    target sb T (update block a (setWord (block a) j w)) (.entry i j) = pointer w := by
  have hj : j.val < 128 := j.isLt
  simp only [target, ha, bind_some, update_self]
  rw [wordAt_setWord_self _ _ hj]

theorem target_setWord_of_ne (h : Ledger sb T loose block)
    (ha : addrTarget sb T i indirectSlot = some a) {q : Place} (hq : q ≠ .entry i j) :
    target sb T (update block a (setWord (block a) j w)) q = target sb T block q := by
  cases q with
  | addr i' l => rfl
  | entry i' n =>
    simp only [target]
    cases ha' : addrTarget sb T i' indirectSlot with
    | none => rfl
    | some a' =>
      by_cases haa : a' = a
      · subst haa
        have hii : i' = i := by
          have hinj := h.owned.inj (.addr i' indirectSlot) (.addr i indirectSlot) a' ha' ha
          exact (Place.addr.inj hinj).1
        have hnj : j.val ≠ n.val := fun hnj => hq (by rw [hii, Fin.ext hnj])
        simp only [bind_some, update_self]
        rw [wordAt_setWord_of_ne _ _ hnj]
      · simp only [bind_some, update_of_ne haa]

theorem linkEntry (h : Ledger sb T loose block) (hb : b ∈ loose)
    (ha : addrTarget sb T i indirectSlot = some a) (hj : wordAt (block a) j = 0) :
    Ledger sb T (loose \ {b}) (update block a (setWord (block a) j (BitVec.ofNat 32 b))) := by
  have hadata := h.mem_data (p := .addr i indirectSlot) ha
  have hempty : target sb T block (.entry i j) = none := by
    simp only [target, ha, bind_some, hj, pointer_zero]
  have hself := target_setWord_self block j (BitVec.ofNat 32 b) ha
  rw [pointer_ofNat (h.loose_mem_data hb)] at hself
  have howned := h.owned.link hb hempty hself fun q hq => h.target_setWord_of_ne ha hq
  refine ⟨howned.congr (fun c => and_congr_right fun hc => ?_) fun _ => rfl, fun c hc => ?_⟩
  · rw [marked_update_data hadata hc.2]
  · rw [marked_update_data hadata (lt_of_lt_of_le hc (sub_le _ _)), h.metadata c hc]

end Entry

end Store

end Ledger

end Xv6.FileSystem
