import Mathlib.Data.Finset.Card
import Xv6.FileSystem.Journal
import Xv6.FileSystem.Ledger

/-!
# The block allocator and the block map of an inode

What `balloc`, `bfree`, `bmap` and `itrunc` do to the ledger. `balloc` puts one
more block in hand, `bfree` gives one back and cannot find it free, `bmap` gives
an inode the blocks it asks for without moving those it has, and `itrunc` gives
back everything an inode refers to. Of the routines that `writei` calls it is also
said what they log.
-/

namespace Xv6.FileSystem

open ByteBlock Routine Function List

variable {b : ℕ} {P : Finset Place} {j : Journal} {sb : Superblock} {p : Place} {v'' : Volume}
  {D : Set ℕ} {d : Block}

/-- A change to the free map and to the data blocks in `D` only. -/
structure SameFiles (sb : Superblock) (D : Set ℕ) (v v' : Volume) : Prop where
  inode : v'.inode = v.inode
  dinode : ∀ i < sb.ninodes, v'.dinode sb i = v.dinode sb i
  data : ∀ c ∈ sb.data, c ∉ D → v'.block c = v.block c

theorem SameFiles.trans {v v' v'' : Volume}
    (h : SameFiles sb D v v') (h' : SameFiles sb D v' v'') : SameFiles sb D v v'' where
  inode := h'.inode.trans h.inode
  dinode i hi := (h'.dinode i hi).trans (h.dinode i hi)
  data c hc hD := (h'.data c hc hD).trans (h.data c hc hD)

theorem SameFiles.mono {D D' : Set ℕ} {v v' : Volume}
    (h : SameFiles sb D v v') (hD : D ⊆ D') : SameFiles sb D' v v' :=
  { h with
    data c hc hc' := h.data c hc fun hcD => hc' (hD hcD) }

theorem sameFiles_bitmap (v : Volume) (hb : b < sb.size)
    (f : Block → Block) : SameFiles sb D v (v.modifyBlock (sb.bblock b) f) where
  inode := rfl
  dinode i hi := by
    rw [Volume.dinode, v.modifyBlock_block_of_ne f (Superblock.iblock_ne_bblock hi), Volume.dinode]
  data c hc _ := v.modifyBlock_block_of_ne f (Superblock.bblock_ne_of_mem_data hb hc).symm

theorem sameFiles_data (v : Volume) (hb : b ∈ sb.data)
    (hD : b ∈ D) (f : Block → Block) : SameFiles sb D v (v.modifyBlock b f) where
  inode := rfl
  dinode i hi := by
    rw [Volume.dinode, v.modifyBlock_block_of_ne f (Superblock.iblock_ne_of_mem_data hi hb),
      Volume.dinode]
  data c _ hc := v.modifyBlock_block_of_ne f fun hcb => hc (hcb ▸ hD)

theorem freeBit_eq_some {n bi : ℕ} (h : freeBit d n = some bi) : bi < n ∧ bitAt d bi = false := by
  have hmem := mem_of_find?_eq_some h
  have hbit := List.find?_some h
  exact ⟨mem_range.1 hmem, by simpa using hbit⟩

theorem freeBit_eq_none {n : ℕ} (h : freeBit d n = none) : ∀ bi < n, bitAt d bi = true := by
  intro bi hbi
  have hbit := List.find?_eq_none.1 h bi (mem_range.2 hbi)
  simpa using hbit

/-- The number of blocks that the free map shows as free. -/
def freeBlocks (sb : Superblock) (block : ℕ → Block) : ℕ :=
  ((Finset.range sb.size).filter fun b => marked sb block b = false).card

/-- The number of the places in `P` that refer to no block. -/
def missing (sb : Superblock) (T : Table) (block : ℕ → Block) (P : Finset Place) : ℕ :=
  (P.filter fun p => target sb T block p = none).card

section Allocator

variable {sb : Superblock} {T : Table} {loose : Set ℕ}

/-- What `balloc` has done when it returns block `b`. -/
structure Allocated (sb : Superblock) (T : Table) (loose : Set ℕ) (v : Volume) (b : ℕ)
    (v' : Volume) : Prop where
  ledger : Ledger sb T (insert b loose) v'.block
  zero : v'.block b = fun _ => 0
  fresh : b ∉ inUse sb v.block
  data : b ∈ sb.data
  frame : SameFiles sb {b} v v'

theorem Ledger.allocated {v : Volume} (h : Ledger sb T loose v.block) (hb : b < sb.size)
    (hfree : marked sb v.block b = false) :
    Allocated sb T loose v b ((v.modifyBlock (sb.bblock b) fun d => setBit d (b % bpb)).modifyBlock
      b fun _ => fun _ => 0) := by
  have hdata : b ∈ sb.data := by
    refine ⟨Nat.le_of_not_lt fun hlt => ?_, hb⟩
    simp [h.metadata b hlt] at hfree
  constructor
  · exact h.take hdata hfree
  · exact Volume.modifyBlock_block_self ..
  · rintro ⟨-, hmarked⟩
    simp [hmarked] at hfree
  · exact hdata
  · exact (sameFiles_bitmap v hb _).trans (sameFiles_data _ hdata (Set.mem_singleton b) _)

theorem freeBlocks_take {block : ℕ → Block} (hb : b ∈ sb.data) (hfree : marked sb block b = false) :
    freeBlocks sb (update (update block (sb.bblock b)
      (setBit (block (sb.bblock b)) (b % bpb))) b d) + 1 = freeBlocks sb block := by
  have hmem : b ∈ (Finset.range sb.size).filter fun c => marked sb block c = false :=
    Finset.mem_filter.2 ⟨Finset.mem_range.2 hb.2, hfree⟩
  rw [freeBlocks, freeBlocks, ← Finset.card_erase_add_one hmem]
  refine congrArg (Finset.card · + 1) ?_
  ext c
  simp only [Finset.mem_filter, Finset.mem_erase, Finset.mem_range]
  constructor
  · rintro ⟨hc, hmarked⟩
    rw [marked_update_data hb hc, marked_setBit, Bool.or_eq_false_iff,
      decide_eq_false_iff_not] at hmarked
    exact ⟨hmarked.1, hc, hmarked.2⟩
  · rintro ⟨hne, hc, hmarked⟩
    rw [marked_update_data hb hc, marked_setBit, decide_eq_false hne, hmarked]
    exact ⟨hc, rfl⟩

theorem marked_add {block : ℕ → Block} {b bi : ℕ} (hb : b % bpb = 0) (hbi : bi < bpb) :
    sb.bblock (b + bi) = sb.bblock b ∧ (b + bi) % bpb = bi ∧
      marked sb block (b + bi) = bitAt (block (sb.bblock b)) bi := by
  have hmod : (b + bi) % bpb = bi := by
    rw [Nat.add_mod, hb, Nat.zero_add, Nat.mod_mod, Nat.mod_eq_of_lt hbi]
  have hblock : sb.bblock (b + bi) = sb.bblock b := by
    have hdiv : (b + bi) / bpb = b / bpb := by
      have hsplit := Nat.div_add_mod b bpb
      rw [hb] at hsplit
      rw [← hsplit, Nat.add_zero, Nat.mul_add_div (by decide), Nat.div_eq_of_lt hbi,
        Nat.mul_div_cancel_left _ (by decide), Nat.add_zero]
    rw [Superblock.bblock, hdiv, Superblock.bblock]
  exact ⟨hblock, hmod, by rw [marked, hblock, hmod]⟩

theorem ballocFrom_spec (h : Ledger sb T loose j.vol.block) (n : ℕ) :
    ∀ b, b % bpb = 0 → wp (Journal.ballocFrom sb b n)
      (fun b j' => Allocated sb T loose j.vol b j'.vol ∧
        freeBlocks sb j'.vol.block + 1 = freeBlocks sb j.vol.block ∧
        j'.logged = b :: sb.bblock b :: j.logged)
      (fun e j' => e = .outOfBlocks ∧ j' = j ∧
        ∀ c, b ≤ c → c < b + n * bpb → c < sb.size → marked sb j.vol.block c = true) j := by
  induction n with
  | zero =>
    intro b _
    exact ⟨rfl, rfl, fun c hlo hhi => by omega⟩
  | succ n ih =>
    intro b hb
    simp only [Journal.ballocFrom, Journal.see, wp_bind, wp_look]
    cases hfree : freeBit (j.vol.block (sb.bblock b)) (min bpb (sb.size - b)) with
    | none =>
      refine wp_mono (ih (b + bpb) (by rw [Nat.add_mod_right, hb])) (fun _ _ h => h) ?_
      rintro e j' ⟨he, hv, hrest⟩
      refine ⟨he, hv, fun c hlo hhi hc => ?_⟩
      rcases Nat.lt_or_ge c (b + bpb) with hhere | hlater
      · obtain ⟨bi, rfl⟩ := Nat.exists_eq_add_of_le hlo
        rw [(marked_add hb (by omega)).2.2]
        exact freeBit_eq_none hfree bi (by omega)
      · rw [Nat.succ_mul] at hhi
        exact hrest c hlater (by omega) hc
    | some bi =>
      obtain ⟨hbi, hbit⟩ := freeBit_eq_some hfree
      have hlt : bi < bpb := Nat.lt_of_lt_of_le hbi (Nat.min_le_left _ _)
      obtain ⟨hblock, hmod, hmarked⟩ := @marked_add sb j.vol.block b bi hb hlt
      rw [hbit] at hmarked
      have halloc := h.allocated (b := b + bi) (by omega) hmarked
      have hcount := freeBlocks_take (d := fun _ => 0) halloc.data hmarked
      rw [hblock, hmod] at halloc hcount
      exact ⟨halloc, hcount, by rw [hblock]⟩

/-- `balloc` marks and zeroes a block that was free, or stops with nothing changed
because there is none. -/
theorem balloc_spec (h : Ledger sb T loose j.vol.block) :
    wp (Journal.balloc sb)
      (fun b j' => Allocated sb T loose j.vol b j'.vol ∧
        freeBlocks sb j'.vol.block + 1 = freeBlocks sb j.vol.block ∧
        j'.logged = b :: sb.bblock b :: j.logged)
      (fun e j' => e = .outOfBlocks ∧ j' = j ∧ freeBlocks sb j.vol.block = 0) j := by
  refine wp_mono (ballocFrom_spec h _ 0 rfl) (fun _ _ h => h) ?_
  rintro e j' ⟨he, hv, hall⟩
  refine ⟨he, hv, Finset.card_eq_zero.2 (Finset.filter_eq_empty_iff.2 fun c hc => ?_)⟩
  have hc := Finset.mem_range.1 hc
  have hcover : c < 0 + (sb.size + bpb - 1) / bpb * bpb := by
    simp only [bpb, bSize]
    omega
  rw [hall c (Nat.zero_le c) hcover hc]
  exact Bool.noConfusion

theorem bfree_spec {v : Volume} (h : Ledger sb T loose v.block) (hb : b ∈ loose) :
    wp (bfree sb b) (fun _ v' => Ledger sb T (loose \ {b}) v'.block ∧ SameFiles sb ∅ v v')
      (fun _ _ => False) v := by
  have hmarked : bitAt (v.block (sb.bblock b)) (b % bpb) ≠ false := by
    have htrue := h.marked_of_loose hb
    rw [marked] at htrue
    simp [htrue]
  simp only [bfree, wp_bind, wp_look, wp_ite, wp_stop, wp_update]
  exact ⟨fun hfalse => hmarked hfalse, fun _ =>
    ⟨h.release hb, sameFiles_bitmap v (h.loose_mem_data hb).2 _⟩⟩

end Allocator

section BlockMap

variable {sb : Superblock} {T T' : Table} {ip : Slot} {v v' : Volume}

def blockTarget (sb : Superblock) (T : Table) (block : ℕ → Block) (i bn : ℕ) : Option ℕ :=
  if bn < nDirect then target sb T block (.addr i (slotOf bn))
  else if h : bn - nDirect < nIndirect then target sb T block (.entry i ⟨bn - nDirect, h⟩)
  else none

theorem slotOf_ne_indirectSlot {i : ℕ} (hi : i < nDirect) : slotOf i ≠ indirectSlot := by
  intro h
  have hval : i % (nDirect + 1) = nDirect := congrArg Fin.val h
  rw [Nat.mod_eq_of_lt (Nat.lt_succ_of_lt hi)] at hval
  exact Nat.ne_of_lt hi hval

theorem exists_of_blockTarget {block : ℕ → Block} {i bn b : ℕ}
    (h : blockTarget sb T block i bn = some b) :
    ∃ p, target sb T block p = some b ∧ ∀ j, p ≠ .addr j indirectSlot := by
  unfold blockTarget at h
  split_ifs at h with hdirect hindirect
  · refine ⟨_, h, fun j hj => slotOf_ne_indirectSlot hdirect (Place.addr.inj hj).2⟩
  · exact ⟨_, h, by simp⟩

/-- The slot `ip` holds the table's copy of an allocated inode. -/
structure Opened (sb : Superblock) (T : Table) (ip : Slot) (v : Volume) : Prop where
  inum_lt : (v.inode ip).inum < sb.ninodes
  copy : (v.inode ip).toDinode = T (v.inode ip).inum
  type_ne : (T (v.inode ip).inum).type ≠ 0

def Place.inum : Place → ℕ
  | .addr i _ => i
  | .entry i _ => i

/-- The inode of slot `ip` has been given more blocks, in memory. -/
structure Grown (sb : Superblock) (ip : Slot) (v : Volume) (T : Table) (v' : Volume)
    (T' : Table) : Prop where
  ledger : Ledger sb T' ∅ v'.block
  table_other : ∀ j, j ≠ (v.inode ip).inum → T' j = T j
  table_self : T' (v.inode ip).inum =
    { T (v.inode ip).inum with addrs := (T' (v.inode ip).inum).addrs }
  slot_other : ∀ q, q ≠ ip → v'.inode q = v.inode q
  slot_self : v'.inode ip = { v.inode ip with addrs := (T' (v.inode ip).inum).addrs }
  dinode : ∀ j < sb.ninodes, v'.dinode sb j = v.dinode sb j
  keeps : ∀ p c, target sb T v.block p = some c → target sb T' v'.block p = some c
  other : ∀ p, p.inum ≠ (v.inode ip).inum → target sb T' v'.block p = target sb T v.block p

theorem Grown.refl (h : Opened sb T ip v) (hledger : Ledger sb T ∅ v.block) :
    Grown sb ip v T v T where
  ledger := hledger
  table_other _ _ := rfl
  table_self := rfl
  slot_other _ _ := rfl
  slot_self := by rw [← h.copy]
  dinode _ _ := rfl
  keeps _ _ hp := hp
  other _ _ := rfl

theorem Grown.inum (h : Grown sb ip v T v' T') : (v'.inode ip).inum = (v.inode ip).inum := by
  rw [h.slot_self]

theorem Grown.trans {T'' : Table} (h : Grown sb ip v T v' T')
    (h' : Grown sb ip v' T' v'' T'') : Grown sb ip v T v'' T'' where
  ledger := h'.ledger
  table_other j hj := (h'.table_other j (h.inum ▸ hj)).trans (h.table_other j hj)
  table_self := by
    have hself := h'.table_self
    rw [h.inum] at hself
    rw [hself, h.table_self]
  slot_other q hq := (h'.slot_other q hq).trans (h.slot_other q hq)
  slot_self := by
    have hself := h'.slot_self
    rw [hself, h.slot_self]
  dinode j hj := (h'.dinode j hj).trans (h.dinode j hj)
  keeps p c hp := h'.keeps p c (h.keeps p c hp)
  other p hp := (h'.other p (h.inum ▸ hp)).trans (h.other p hp)

theorem Grown.opened (h : Grown sb ip v T v' T') (ho : Opened sb T ip v) : Opened sb T' ip v' where
  inum_lt := h.inum ▸ ho.inum_lt
  copy := by
    rw [h.inum, h.table_self, ← ho.copy, h.slot_self]
  type_ne := by
    rw [h.inum, h.table_self]
    exact ho.type_ne

theorem Allocated.target_eq (h : Allocated sb T ∅ v b v') (hledger : Ledger sb T ∅ v.block)
    (p : Place) : target sb T v'.block p = target sb T v.block p := by
  refine target_congr (fun _ _ => rfl) (fun i c hc => ?_) p
  refine h.frame.data c (hledger.mem_data (p := .addr i indirectSlot) hc) ?_
  rintro rfl
  exact hledger.owned.ref_ne_of_notMem h.fresh (.addr i indirectSlot) hc

/-- Place `p`, which was empty, has been given the block `b`, which was free. -/
structure Linked (sb : Superblock) (v : Volume) (T : Table) (v' : Volume) (T' : Table) (p : Place)
    (b : ℕ) : Prop where
  empty : target sb T v.block p = none
  filled : ∀ q, target sb T' v'.block q = if q = p then some b else target sb T v.block q
  free : freeBlocks sb v'.block + 1 = freeBlocks sb v.block
  kept : ∀ q c, (∀ i, q ≠ .addr i indirectSlot) → target sb T v.block q = some c →
    v'.block c = v.block c

def Ensured (sb : Superblock) (v : Volume) (T : Table) (v' : Volume) (T' : Table) (p : Place)
    (b : ℕ) : Prop :=
  target sb T' v'.block p = some b ∧ ((v' = v ∧ T' = T) ∨ Linked sb v T v' T' p b)

theorem Ensured.same (h : Ensured sb v T v' T' p b)
    (hp : target sb T v.block p ≠ none) : v' = v ∧ T' = T :=
  h.2.resolve_right fun hlinked => hp hlinked.empty

variable (ho : Opened sb T ip j.vol) (hledger : Ledger sb T ∅ j.vol.block)

include ho hledger in
theorem addrOrAlloc_spec (k : Fin (nDirect + 1)) :
    wp (Journal.addrOrAlloc sb ip k)
      (fun b j' => ∃ T', Grown sb ip j.vol T j'.vol T' ∧
        Ensured sb j.vol T j'.vol T' (.addr (j.vol.inode ip).inum k) b ∧
        ∀ c ∈ j'.logged, c ∈ j.logged ∨
          target sb T j.vol.block (.addr (j.vol.inode ip).inum k) = none ∧
            (c = b ∨ c = sb.bblock b))
      (fun e j' => e = .outOfBlocks ∧ j' = j ∧
        target sb T j.vol.block (.addr (j.vol.inode ip).inum k) = none ∧
        freeBlocks sb j.vol.block = 0) j := by
  obtain ⟨v, logged⟩ := j
  have hcopy : (v.inode ip).addrs k = (T (v.inode ip).inum).addrs k := by rw [← ho.copy]
  have htarget : target sb T v.block (.addr (v.inode ip).inum k) =
      pointer ((T (v.inode ip).inum).addrs k) := by
    rw [target, addrTarget, if_pos ho.inum_lt, Dinode.pointer, if_neg ho.type_ne]
  simp only [Journal.addrOrAlloc, Journal.see, Journal.setInode, wp_bind, wp_look, wp_ite, wp_pure,
    wp_update]
  rw [hcopy]
  constructor
  · intro hzero
    have hnone : target sb T v.block (.addr (v.inode ip).inum k) = none := by
      rw [htarget, hzero, pointer_zero]
    refine wp_mono (balloc_spec hledger) ?_ fun e j' he => ⟨he.1, he.2.1, hnone, he.2.2⟩
    rintro b ⟨v', -⟩ ⟨hb, hcount, rfl⟩
    have hwords : ∀ j, wordAt (v'.block b) j = 0 := fun j => by rw [hb.zero, wordAt_zero]
    have hlinked := hb.ledger.linkAddr (Set.mem_insert b ∅) ho.inum_lt ho.type_ne hzero hwords
    rw [insert_empty_eq, Set.sdiff_self] at hlinked
    have hfilled := Ledger.target_linkAddr hb.data ho.inum_lt ho.type_ne hzero hwords
    simp only [hb.target_eq hledger] at hfilled
    refine ⟨_, ⟨hlinked, fun j hj => update_of_ne hj .., ?_, ?_, ?_, hb.frame.dinode, ?_,
      fun p hp => ?_⟩, ⟨(hfilled _).trans (if_pos rfl), .inr ⟨hnone, hfilled, hcount, ?_⟩⟩, ?_⟩
    · rw [update_self]
      rfl
    · intro q hq
      rw [v'.modifyInode_inode_of_ne _ hq, hb.frame.inode]
    · rw [v'.modifyInode_inode_self, update_self, hb.frame.inode]
      simp only [Inode.setAddr, Dinode.setAddr, ← ho.copy]
    · intro p c hp
      have hne : p ≠ .addr (v.inode ip).inum k := by
        rintro rfl
        simp [hnone] at hp
      rw [Volume.modifyInode_block, hfilled, if_neg hne, hp]
    · refine (hfilled p).trans (if_neg ?_)
      rintro rfl
      exact hp rfl
    · intro q c _ hq
      refine hb.frame.data c (hledger.mem_data hq) ?_
      rintro rfl
      exact hledger.owned.ref_ne_of_notMem hb.fresh q hq
    · intro c hc
      rcases mem_cons.1 hc with rfl | hc
      · exact .inr ⟨hnone, .inl rfl⟩
      · exact (mem_cons.1 hc).elim (fun hc => .inr ⟨hnone, .inr hc⟩) .inl
  · intro hne
    exact ⟨T, Grown.refl ho hledger, ⟨by rw [htarget, pointer, if_neg hne], .inl ⟨rfl, rfl⟩⟩,
      fun _ => .inl⟩

include ho hledger in
theorem entryOrAlloc_spec {a : ℕ} (ha : addrTarget sb T (j.vol.inode ip).inum indirectSlot = some a)
    (k : Fin nIndirect) :
    wp (Journal.entryOrAlloc sb a k)
      (fun b j' => Grown sb ip j.vol T j'.vol T ∧
        Ensured sb j.vol T j'.vol T (.entry (j.vol.inode ip).inum k) b ∧
        ∀ c ∈ j'.logged, c ∈ j.logged ∨ c = a ∨
          target sb T j.vol.block (.entry (j.vol.inode ip).inum k) = none ∧
            (c = b ∨ c = sb.bblock b))
      (fun e j' => e = .outOfBlocks ∧ j' = j ∧
        target sb T j.vol.block (.entry (j.vol.inode ip).inum k) = none ∧
        freeBlocks sb j.vol.block = 0) j := by
  obtain ⟨v, logged⟩ := j
  have htarget : ∀ block, target sb T block (.entry (v.inode ip).inum k) =
      pointer (wordAt (block a) k) := fun block => by
    simp only [target, ha, Option.bind_some]
  have hadata := hledger.mem_data (p := .addr _ indirectSlot) ha
  simp only [Journal.entryOrAlloc, Journal.see, Journal.logWrite, wp_bind, wp_look, wp_ite, wp_pure,
    wp_update]
  constructor
  · intro hzero
    have hnone : target sb T v.block (.entry (v.inode ip).inum k) = none := by
      rw [htarget, hzero, pointer_zero]
    refine wp_mono (balloc_spec hledger) ?_ fun e j' he => ⟨he.1, he.2.1, hnone, he.2.2⟩
    rintro b ⟨v', -⟩ ⟨hb, hcount, rfl⟩
    have hab : a ≠ b := by
      rintro rfl
      exact hledger.owned.ref_ne_of_notMem hb.fresh (.addr _ indirectSlot) ha
    have hsame : v'.block a = v.block a := hb.frame.data a hadata hab
    have hlinked := hb.ledger.linkEntry (Set.mem_insert b ∅) ha (by rw [hsame, hzero])
    rw [insert_empty_eq, Set.sdiff_self] at hlinked
    have hframe := (hb.frame.mono (Set.subset_insert a {b})).trans
      (sameFiles_data v' hadata (Set.mem_insert a {b}) fun d => setWord d k (BitVec.ofNat 32 b))
    have hself := (Ledger.target_setWord_self v'.block k (BitVec.ofNat 32 b) ha).trans
      (pointer_ofNat hb.data)
    have hother : ∀ q, q ≠ .entry (v.inode ip).inum k →
        target sb T (update v'.block a (setWord (v'.block a) k (BitVec.ofNat 32 b))) q =
          target sb T v.block q :=
      fun q hq => (hb.ledger.target_setWord_of_ne ha hq).trans (hb.target_eq hledger q)
    refine ⟨⟨hlinked, fun _ _ => rfl, rfl, fun q _ => by rw [hframe.inode], ?_, hframe.dinode, ?_,
      fun p hp => hother p fun heq => hp (by rw [heq, Place.inum])⟩,
      ⟨hself, .inr ⟨hnone, fun q => ?_, ?_, ?_⟩⟩, ?_⟩
    · rw [hframe.inode, ← ho.copy]
    · intro p c hp
      have hne : p ≠ .entry (v.inode ip).inum k := by
        rintro rfl
        simp [hnone] at hp
      exact (hother p hne).trans hp
    · by_cases hq : q = .entry (v.inode ip).inum k
      · rw [if_pos hq, hq]
        exact hself
      · rw [if_neg hq]
        exact hother q hq
    · rw [← hcount]
      refine congrArg (Finset.card · + 1) (Finset.filter_congr fun c hc => ?_)
      exact (congrArg (· = false) (marked_update_data hadata (Finset.mem_range.1 hc))).to_iff
    · -- the indirect block itself is at no other place
      intro q c hq hc
      refine hframe.data c (hledger.mem_data hc) ?_
      rintro (rfl | rfl)
      · exact hq _ (hledger.owned.inj q (.addr _ indirectSlot) c hc ha)
      · exact hledger.owned.ref_ne_of_notMem hb.fresh q hc
    · intro c hc
      rcases mem_cons.1 hc with rfl | hc
      · exact .inr (.inl rfl)
      rcases mem_cons.1 hc with rfl | hc
      · exact .inr (.inr ⟨hnone, .inl rfl⟩)
      · exact (mem_cons.1 hc).elim (fun hc => .inr (.inr ⟨hnone, .inr hc⟩)) .inl
  · intro hne
    exact ⟨Grown.refl ho hledger, ⟨by rw [htarget, pointer, if_neg hne], .inl ⟨rfl, rfl⟩⟩,
      fun _ => .inl⟩

def Paid (sb : Superblock) (P : Finset Place) (v : Volume) (T : Table) (v' : Volume)
    (T' : Table) : Prop :=
  freeBlocks sb v'.block + missing sb T v.block P = freeBlocks sb v.block + missing sb T' v'.block P

theorem Paid.trans {T'' : Table} (h : Paid sb P v T v' T')
    (h' : Paid sb P v' T' v'' T'') : Paid sb P v T v'' T'' := by
  unfold Paid at h h' ⊢
  omega

theorem Linked.paid (h : Linked sb v T v' T' p b) (hp : p ∈ P) : Paid sb P v T v' T' := by
  have hmem : p ∈ P.filter fun q => target sb T v.block q = none :=
    Finset.mem_filter.2 ⟨hp, h.empty⟩
  have herase : (P.filter fun q => target sb T' v'.block q = none) =
      (P.filter fun q => target sb T v.block q = none).erase p := by
    ext q
    simp only [Finset.mem_filter, Finset.mem_erase, h.filled]
    by_cases hq : q = p
    · simp [hq]
    · simp [hq]
  have hcard := Finset.card_erase_add_one hmem
  have hfree := h.free
  rw [Paid, missing, missing, herase]
  omega

theorem Ensured.paid (h : Ensured sb v T v' T' p b) (hp : p ∈ P) : Paid sb P v T v' T' := by
  rcases h.2 with ⟨rfl, rfl⟩ | hlinked
  · rfl
  · exact hlinked.paid hp

theorem missing_pos (hp : p ∈ P) (hnone : target sb T v.block p = none)
    (hfree : freeBlocks sb v.block = 0) : freeBlocks sb v.block < missing sb T v.block P := by
  rw [hfree]
  exact Finset.card_pos.2 ⟨p, Finset.mem_filter.2 ⟨hp, hnone⟩⟩

def blockPlaces (i bn : ℕ) : Finset Place :=
  if bn < nDirect then {.addr i (slotOf bn)}
  else if h : bn - nDirect < nIndirect then {.addr i indirectSlot, .entry i ⟨bn - nDirect, h⟩}
  else ∅

def Kept (sb : Superblock) (T : Table) (v v' : Volume) : Prop :=
  ∀ i bn c, blockTarget sb T v.block i bn = some c → v'.block c = v.block c

theorem Ensured.kept (h : Ensured sb v T v' T' p b) : Kept sb T v v' := by
  intro i bn c hc
  rcases h.2 with ⟨rfl, rfl⟩ | hlinked
  · rfl
  · obtain ⟨q, hq, hdirect⟩ := exists_of_blockTarget hc
    exact hlinked.kept q c hdirect hq

theorem Grown.keeps_blockTarget (h : Grown sb ip v T v' T') {i bn b : ℕ}
    (hb : blockTarget sb T v.block i bn = some b) : blockTarget sb T' v'.block i bn = some b := by
  unfold blockTarget at hb ⊢
  split_ifs at hb ⊢ with hdirect hindirect
  · exact h.keeps _ b hb
  · exact h.keeps _ b hb

theorem Grown.blockTarget_other (h : Grown sb ip v T v' T') {i : ℕ} (hi : i ≠ (v.inode ip).inum)
    (bn : ℕ) : blockTarget sb T' v'.block i bn = blockTarget sb T v.block i bn := by
  unfold blockTarget
  split_ifs
  · exact h.other _ hi
  · exact h.other _ hi
  · rfl

theorem Kept.trans (h : Kept sb T v v') (hgrown : Grown sb ip v T v' T')
    (h' : Kept sb T' v' v'') : Kept sb T v v'' := fun i bn c hc =>
  (h' i bn c (hgrown.keeps_blockTarget hc)).trans (h i bn c hc)

/-- `bmap` has returned `b` for block `bn` of the inode of slot `ip`. -/
structure Mapped (sb : Superblock) (ip : Slot) (bn : ℕ) (v : Volume) (T : Table) (b : ℕ)
    (v' : Volume) (T' : Table) : Prop where
  grown : Grown sb ip v T v' T'
  there : blockTarget sb T' v'.block (v.inode ip).inum bn = some b
  same : blockTarget sb T v.block (v.inode ip).inum bn ≠ none → v' = v ∧ T' = T
  kept : Kept sb T v v'
  paid : ∀ P, blockPlaces (v.inode ip).inum bn ⊆ P → Paid sb P v T v' T'

/-- `bmap` has stopped: the block was not there, and there are too few blocks for the places in
need of one, or no file has so many blocks. -/
structure Unmapped (sb : Superblock) (ip : Slot) (bn : ℕ) (v : Volume) (T : Table) (e : Panic)
    (v' : Volume) (T' : Table) : Prop where
  grown : Grown sb ip v T v' T'
  panic : e ≠ .freeingFreeBlock
  absent : blockTarget sb T v.block (v.inode ip).inum bn = none
  short : bn < maxFile → e = .outOfBlocks ∧
    ∀ P, blockPlaces (v.inode ip).inum bn ⊆ P → freeBlocks sb v.block < missing sb T v.block P

/-- What is new in the log: blocks of inode `i` with numbers in `S`, the blocks of the free map for
those that were not there, and the indirect block with its block of the free map. -/
def Logs (sb : Superblock) (i : ℕ) (S : Set ℕ) (j : Journal) (T : Table) (j' : Journal)
    (T' : Table) : Prop :=
  ∀ c ∈ j'.logged, c ∈ j.logged ∨
    (∃ bn ∈ S, ∃ b, blockTarget sb T' j'.vol.block i bn = some b ∧
      (c = b ∨ blockTarget sb T j.vol.block i bn = none ∧ c = sb.bblock b)) ∨
    ∃ a, target sb T' j'.vol.block (.addr i indirectSlot) = some a ∧ (c = a ∨ c = sb.bblock a)

section Logs

variable {j j' j'' : Journal} {T'' : Table} {i : ℕ} {S S' : Set ℕ}

theorem Logs.refl : Logs sb i S j T j T := fun _ => .inl

theorem Logs.mono (h : Logs sb i S j T j' T') (hS : S ⊆ S') : Logs sb i S' j T j' T' :=
  fun c hc => (h c hc).imp id fun hnew => hnew.imp (fun ⟨bn, hbn, hb⟩ => ⟨bn, hS hbn, hb⟩) id

theorem Logs.trans (h : Logs sb i S j T j' T') (hgrown : Grown sb ip j.vol T j'.vol T')
    (h' : Logs sb i S j' T' j'' T'') (hgrown' : Grown sb ip j'.vol T' j''.vol T'') :
    Logs sb i S j T j'' T'' := by
  intro c hc
  rcases h' c hc with hc | ⟨bn, hbn, b, hb, hnew⟩ | hindirect
  · rcases h c hc with hc | ⟨bn, hbn, b, hb, hnew⟩ | ⟨a, ha, hc⟩
    · exact .inl hc
    · exact .inr (.inl ⟨bn, hbn, b, hgrown'.keeps_blockTarget hb, hnew⟩)
    · exact .inr (.inr ⟨a, hgrown'.keeps _ a ha, hc⟩)
  · -- what was not there after the first part was not there before it
    refine .inr (.inl ⟨bn, hbn, b, hb, hnew.imp id fun ⟨hnone, hc⟩ => ⟨?_, hc⟩⟩)
    by_contra hsome
    obtain ⟨b', hb'⟩ := Option.ne_none_iff_exists'.1 hsome
    simp [hgrown.keeps_blockTarget hb'] at hnone
  · exact .inr (.inr hindirect)

theorem Logs.write {bn b : ℕ} (hb : blockTarget sb T j.vol.block i bn = some b) (f : Block → Block)
    (hkeeps : blockTarget sb T (j.vol.modifyBlock b f).block i bn = some b) :
    Logs sb i {bn} j T ⟨j.vol.modifyBlock b f, b :: j.logged⟩ T := by
  intro c hc
  rcases mem_cons.1 hc with rfl | hc
  · exact .inr (.inl ⟨bn, rfl, c, hkeeps, .inl rfl⟩)
  · exact .inl hc

end Logs

include ho hledger in
/-- `bmap` returns the block it was asked for. It allocates only if there was
none, and a block it fails to allocate is one that was not there. -/
theorem bmap_spec (bn : ℕ) :
    wp (Journal.bmap sb ip bn)
      (fun b j' => ∃ T', Mapped sb ip bn j.vol T b j'.vol T' ∧
        Logs sb (j.vol.inode ip).inum {bn} j T j' T')
      (fun e j' => ∃ T', Unmapped sb ip bn j.vol T e j'.vol T' ∧
        Logs sb (j.vol.inode ip).inum {bn} j T j' T') j := by
  have hrefl := Grown.refl ho hledger
  rw [Journal.bmap]
  split_ifs with hdirect hindirect
  · have hplaces : blockPlaces (j.vol.inode ip).inum bn =
        {.addr (j.vol.inode ip).inum (slotOf bn)} := if_pos hdirect
    have htarget : ∀ T block, blockTarget sb T block (j.vol.inode ip).inum bn =
        target sb T block (.addr (j.vol.inode ip).inum (slotOf bn)) := fun _ _ => if_pos hdirect
    refine wp_mono (addrOrAlloc_spec ho hledger (slotOf bn)) ?_ ?_
    · rintro b j' ⟨T', hgrown, hensured, hlog⟩
      refine ⟨T', ⟨hgrown, by rw [htarget, hensured.1], fun hsome => ?_, hensured.kept, ?_⟩,
        fun c hc => (hlog c hc).imp id fun hnew => ?_⟩
      · exact hensured.same (htarget T j.vol.block ▸ hsome)
      · exact fun P hP => hensured.paid (hP (by simp [hplaces]))
      · refine .inl ⟨bn, rfl, b, by rw [htarget, hensured.1], hnew.2.imp id fun hc => ⟨?_, hc⟩⟩
        rw [htarget, hnew.1]
    · rintro e j' ⟨rfl, rfl, hnone, hfree⟩
      refine ⟨T, ⟨hrefl, by decide, by rw [htarget, hnone], fun _ => ⟨rfl, fun P hP => ?_⟩⟩,
        Logs.refl⟩
      exact missing_pos (hP (by simp [hplaces])) hnone hfree
  · have hplaces : blockPlaces (j.vol.inode ip).inum bn = {.addr (j.vol.inode ip).inum indirectSlot,
        .entry (j.vol.inode ip).inum ⟨bn - nDirect, hindirect⟩} := by
      rw [blockPlaces, if_neg hdirect, dif_pos hindirect]
    have htarget : ∀ T block, blockTarget sb T block (j.vol.inode ip).inum bn =
        target sb T block (.entry (j.vol.inode ip).inum ⟨bn - nDirect, hindirect⟩) :=
      fun T block => by rw [blockTarget, if_neg hdirect, dif_pos hindirect]
    -- an entry can be there only if the indirect block is
    have habsent : target sb T j.vol.block (.addr (j.vol.inode ip).inum indirectSlot) = none →
        target sb T j.vol.block (.entry (j.vol.inode ip).inum ⟨bn - nDirect, hindirect⟩) =
          none := by
      intro hnone
      rw [target] at hnone
      rw [target, hnone, Option.bind_none]
    rw [wp_bind]
    refine wp_mono (addrOrAlloc_spec ho hledger indirectSlot) ?_ ?_
    · rintro a j₁ ⟨T₁, hgrown, hensured, hlog⟩
      have hlog₁ : Logs sb (j.vol.inode ip).inum {bn} j T j₁ T₁ := fun c hc =>
        (hlog c hc).imp id fun hnew => .inr ⟨a, hensured.1, hnew.2⟩
      have hentry := entryOrAlloc_spec (hgrown.opened ho) hgrown.ledger (hgrown.inum ▸ hensured.1)
        ⟨bn - nDirect, hindirect⟩
      rw [hgrown.inum] at hentry
      refine wp_mono hentry ?_ ?_
      · rintro b j₂ ⟨hgrown', hensured', hlog'⟩
        refine ⟨T₁, ⟨hgrown.trans hgrown', by rw [htarget, hensured'.1], fun hsome => ?_,
          hensured.kept.trans hgrown hensured'.kept, fun P hP => ?_⟩,
          hlog₁.trans hgrown (fun c hc => (hlog' c hc).imp id fun hnew => ?_) hgrown'⟩
        · rw [htarget] at hsome
          obtain ⟨hv, rfl⟩ := hensured.same fun h => hsome (habsent h)
          rw [hv] at hensured'
          exact hensured'.same hsome
        · exact (hensured.paid (hP (by simp [hplaces]))).trans
            (hensured'.paid (hP (by simp [hplaces])))
        · rcases hnew with hc | ⟨hnone, hc⟩
          · exact .inr ⟨a, hensured.1, .inl hc⟩
          · refine .inl ⟨bn, rfl, b, by rw [htarget, hensured'.1], hc.imp id fun hc => ⟨?_, hc⟩⟩
            rw [htarget, hnone]
      · rintro e j₂ ⟨rfl, rfl, hnone, hfree⟩
        refine ⟨T₁, ⟨hgrown, by decide, ?_, fun _ => ⟨rfl, fun P hP => ?_⟩⟩, hlog₁⟩
        · rw [htarget]
          by_contra hsome
          obtain ⟨hv, rfl⟩ := hensured.same fun h => hsome (habsent h)
          rw [hv] at hnone
          exact hsome hnone
        · have hshort := missing_pos (P := P) (hP (by simp [hplaces])) hnone hfree
          have hpaid := hensured.paid (P := P) (hP (by simp [hplaces]))
          rw [Paid] at hpaid
          omega
    · rintro e j' ⟨rfl, rfl, hnone, hfree⟩
      refine ⟨T, ⟨hrefl, by decide, by rw [htarget, habsent hnone], fun _ => ⟨rfl, fun P hP => ?_⟩⟩,
        Logs.refl⟩
      exact missing_pos (hP (by simp [hplaces])) hnone hfree
  · refine ⟨T, ⟨hrefl, by decide, ?_, fun hlt => ?_⟩, Logs.refl⟩
    · rw [blockTarget, if_neg hdirect, dif_neg hindirect]
    · simp only [maxFile] at hlt
      omega

end BlockMap

end Xv6.FileSystem
