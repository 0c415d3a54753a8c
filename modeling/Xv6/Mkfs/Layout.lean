import Mathlib.Data.List.GetD
import Xv6.Mkfs.Model

/-!
# The image while it is built

The bitmap is written last, so until then the image is looked at with the bitmap that `balloc`
would write now: `completed`. In this view `freeblock++` marks a block as the kernel's allocator
does, and the ledger of the kernel's file system follows `mkfs` through each assignment.

`Layout m T data nb` says that the inodes of the table `T` hold the bytes `data`, inode `i`
with its first `nb i` blocks in place, and that nothing has been written past `freeblock`.
-/

namespace Xv6.Mkfs

open ByteBlock FileSystem Function List Option Nat Superblock

variable {b : ℕ}

theorem bitmap_succ (used : ℕ) : bitmap (used + 1) = setBit (bitmap used) used := by
  rw [bitmap, range_succ, foldl_append, foldl_cons, foldl_nil, ← bitmap]

theorem bitAt_bitmap {used : ℕ} (hused : used ≤ 8 * bSize) (j : ℕ) :
    bitAt (bitmap used) j = decide (j < used) := by
  induction used with
  | zero => simp [bitmap, bitAt, byteAt, zeroes]
  | succ used ih =>
    rw [bitmap_succ, bitAt_setBit _ hused, ih (le_of_succ_le hused), ← Bool.decide_or,
      decide_eq_decide]
    omega

theorem bblock_eq (hb : b < fsSize) : sb.bblock b = sb.bmapstart := by
  rw [bblock, div_eq_of_lt (lt_trans hb (by decide)), zero_add]

theorem mod_bpb (hb : b < fsSize) : b % bpb = b :=
  mod_eq_of_lt (lt_trans hb (by decide))

theorem ne_bmapstart_of_mem_data (hb : b ∈ sb.data) : b ≠ sb.bmapstart :=
  ne_of_gt (lt_of_lt_of_le sb.bmapstart_lt_nmeta hb.1)

section Completed

variable {m : State} {b sec : ℕ} {buf : Block}

/-- The image with the bitmap that `balloc` would write now. -/
def State.completed (m : State) : ℕ → Block :=
  update m.sector sb.bmapstart (bitmap m.freeblock)

theorem completed_of_ne (h : b ≠ sb.bmapstart) : m.completed b = m.sector b :=
  update_of_ne h ..

theorem sector_of_mem_data (hb : b ∈ sb.data) : m.sector b = m.completed b :=
  (completed_of_ne (ne_bmapstart_of_mem_data hb)).symm

theorem completed_write (h : sec ≠ sb.bmapstart) :
    (m.write sec buf).completed = update m.completed sec buf :=
  update_comm h ..

theorem write_sectors (h : sec < m.sectors) : (m.write sec buf).sectors = m.sectors :=
  max_eq_left h

theorem completed_take :
    m.take.completed =
      update m.completed sb.bmapstart (setBit (bitmap m.freeblock) m.freeblock) := by
  rw [State.completed, State.completed, update_idem, ← bitmap_succ]
  rfl

theorem marked_completed (hm : m.freeblock ≤ fsSize) (hb : b < fsSize) :
    marked sb m.completed b = decide (b < m.freeblock) := by
  rw [marked, bblock_eq hb, mod_bpb hb, State.completed, update_self,
    bitAt_bitmap (le_trans hm (by decide))]

end Completed

section Places

variable {T T' : Table} {block block' : ℕ → Block} {i i' bn bn' : ℕ} {p : Place}

def placeOf (i bn : ℕ) : Option Place :=
  if bn < nDirect then some (.addr i (slotOf bn))
  else if h : bn - nDirect < nIndirect then some (.entry i ⟨bn - nDirect, h⟩)
  else none

theorem blockTarget_eq_bind (i bn : ℕ) :
    blockTarget sb T block i bn = (placeOf i bn).bind (target sb T block) := by
  unfold blockTarget placeOf
  split_ifs <;> rfl

theorem placeOf_ne_indirect (i bn j : ℕ) : placeOf i bn ≠ some (.addr j indirectSlot) := by
  unfold placeOf
  split_ifs with hdirect hindirect
  · intro h
    exact slotOf_ne_indirectSlot hdirect (Place.addr.inj (Option.some.inj h)).2
  · simp
  · simp

theorem placeOf_inj (h : placeOf i bn = some p) (h' : placeOf i' bn' = some p) :
    i = i' ∧ bn = bn' := by
  unfold placeOf at h h'
  split_ifs at h h' with hdirect hdirect' hentry' hentry hdirect' hentry'
  · obtain ⟨hi, hslot⟩ := Place.addr.inj (Option.some.inj (h.trans h'.symm))
    have hval := congrArg Fin.val hslot
    rw [slotOf_val hdirect, slotOf_val hdirect'] at hval
    exact ⟨hi, hval⟩
  · cases Option.some.inj (h.trans h'.symm)
  · cases Option.some.inj (h.trans h'.symm)
  · obtain ⟨hi, hj⟩ := Place.entry.inj (Option.some.inj (h.trans h'.symm))
    have hval := congrArg Fin.val hj
    simp only at hval
    exact ⟨hi, by omega⟩

theorem exists_placeOf (h : blockTarget sb T block i bn = some b) :
    ∃ p, placeOf i bn = some p ∧ target sb T block p = some b := by
  rw [blockTarget_eq_bind] at h
  exact bind_eq_some_iff.1 h

theorem eq_of_blockTarget {loose : Set ℕ} (h : Ledger sb T loose block)
    (hb : blockTarget sb T block i bn = some b) (hb' : blockTarget sb T block i' bn' = some b) :
    i = i' ∧ bn = bn' := by
  obtain ⟨p, hp, hpb⟩ := exists_placeOf hb
  obtain ⟨p', hp', hpb'⟩ := exists_placeOf hb'
  rw [h.owned.inj p p' b hpb hpb'] at hp
  exact placeOf_inj hp hp'

theorem ne_indirect_of_blockTarget {loose : Set ℕ} (h : Ledger sb T loose block)
    (hb : blockTarget sb T block i bn = some b) (j : ℕ) :
    addrTarget sb T j indirectSlot ≠ some b := by
  intro hj
  obtain ⟨p, hp, hpb⟩ := exists_placeOf hb
  rw [h.owned.inj p (.addr j indirectSlot) b hpb hj] at hp
  exact placeOf_ne_indirect i bn j hp

theorem blockTarget_of_target (h : ∀ q, target sb T' block' q = target sb T block q) (i bn : ℕ) :
    blockTarget sb T' block' i bn = blockTarget sb T block i bn := by
  rw [blockTarget_eq_bind, blockTarget_eq_bind]
  exact congrArg _ (funext h)

end Places

section Stored

variable {T T' : Table} {block block' : ℕ → Block} {i nb : ℕ} {l p : List (BitVec 8)}

/-- Inode `i` has its first `nb` blocks, and they hold the bytes `l`, with zeros after them. -/
structure Stored (T : Table) (block : ℕ → Block) (i : ℕ) (l : List (BitVec 8)) (nb : ℕ) :
    Prop where
  blocks : ∀ bn, blockTarget sb T block i bn ≠ none ↔ bn < nb
  bytes : ∀ bn b, blockTarget sb T block i bn = some b →
    ∀ j < bSize, byteAt (block b) j = l.getD (bn * bSize + j) 0

theorem Stored.congr (h : Stored T block i l nb)
    (hmap : ∀ bn, blockTarget sb T' block' i bn = blockTarget sb T block i bn)
    (hblock : ∀ bn b, blockTarget sb T block i bn = some b → block' b = block b) :
    Stored T' block' i l nb where
  blocks bn := by rw [hmap, h.blocks]
  bytes bn b hb := by
    rw [hmap] at hb
    rw [hblock bn b hb]
    exact h.bytes bn b hb

theorem Stored.grow (h : Stored T block i l nb) (hl : l.length ≤ nb * bSize) {x : ℕ}
    (hmap : ∀ bn, blockTarget sb T' block' i bn =
      if bn = nb then some x else blockTarget sb T block i bn)
    (hblock : ∀ bn b, blockTarget sb T block i bn = some b → block' b = block b)
    (hx : block' x = zeroes) : Stored T' block' i l (nb + 1) where
  blocks bn := by
    rw [hmap]
    split_ifs with hbn
    · simp [hbn]
    · rw [h.blocks]
      omega
  bytes bn b hb j hj := by
    rw [hmap] at hb
    split_ifs at hb with hbn
    · cases hb
      rw [hx, hbn, getD_eq_default _ _ (le_trans hl (le_add_right _ _))]
      simp [byteAt, zeroes]
    · rw [hblock bn b hb]
      exact h.bytes bn b hb j hj

theorem getD_append_take {n : ℕ} (hn : n ≤ p.length) (k : ℕ) :
    (l ++ p.take n).getD k 0 =
      if l.length ≤ k ∧ k < l.length + n then p.getD (k - l.length) 0 else l.getD k 0 := by
  have hlen : (p.take n).length = n := length_take_of_le hn
  split_ifs with hk
  · rw [getD_append_right _ _ _ _ hk.1, getD_eq_getElem?_getD,
      getD_eq_getElem?_getD, List.getElem?_take_of_lt (by omega)]
  · by_cases hlt : k < l.length
    · rw [getD_append _ _ _ _ hlt]
    · rw [getD_eq_default _ _ (by rw [length_append]; omega), getD_eq_default _ _ (by omega)]

theorem Stored.append (h : Stored T block i l nb) {fbn x n : ℕ}
    (hx : blockTarget sb T block i fbn = some x)
    (hinj : ∀ bn, blockTarget sb T block i bn = some x → bn = fbn)
    (hmap : ∀ bn, blockTarget sb T block' i bn = blockTarget sb T block i bn)
    (hstart : fbn * bSize ≤ l.length) (hend : l.length + n ≤ (fbn + 1) * bSize) (hn : n ≤ p.length)
    (hblock : block' = update block x
      (store (block x) (l.length - fbn * bSize) n fun j => p.getD j 0)) :
    Stored T block' i (l ++ p.take n) nb where
  blocks bn := by rw [hmap, h.blocks]
  bytes bn b hb j hj := by
    rw [hmap] at hb
    have hbytes := h.bytes bn b hb j hj
    rw [getD_append_take hn, hblock]
    by_cases hbn : bn = fbn
    · subst hbn
      cases hx.symm.trans hb
      rw [update_self]
      split_ifs with hin
      · have hoff : j = l.length - bn * bSize + (bn * bSize + j - l.length) := by omega
        rw [hoff, byteAt_store_inside _ _ (by omega) (by omega)]
        congr 1
        omega
      · rw [byteAt_store_outside _ _ (by omega), hbytes]
    · -- another block of the file: none of the new bytes are in it
      have hne : b ≠ x := by
        rintro rfl
        exact hbn (hinj bn hb)
      rw [update_of_ne hne, hbytes, if_neg]
      simp only [bSize] at hstart hend hj ⊢
      omega

end Stored

section Layout

variable {m m' : State} {T T' : Table} {data : ℕ → List (BitVec 8)} {nb : ℕ → ℕ} {p : Place}
  {inum : ℕ}

/-- What every state of the builder has in common: the references of the table agree with
the blocks handed out so far, and the blocks after them are still zero. -/
structure Base (m : State) (T : Table) : Prop where
  sectors : m.sectors = fsSize
  nmeta_le : nmeta ≤ m.freeblock
  le_fsSize : m.freeblock ≤ fsSize
  super : m.completed 1 = superBlock
  ledger : Ledger sb T ∅ m.completed
  zero : ∀ b, m.freeblock ≤ b → m.completed b = zeroes

structure Layout (m : State) (T : Table) (data : ℕ → List (BitVec 8)) (nb : ℕ → ℕ) : Prop
    extends Base m T where
  stored : ∀ i < nInodes, Stored T m.completed i (data i) (nb i)

theorem Base.lt_freeblock (h : Base m T) (hb : target sb T m.completed p = some b) :
    b < m.freeblock := by
  have hused := h.ledger.owned.used_of_ref hb
  have hmarked := hused.2
  rw [marked_completed h.le_fsSize hused.1.2] at hmarked
  exact of_decide_eq_true hmarked

theorem Base.mem_data (h : Base m T) (hroom : m.freeblock < fsSize) : m.freeblock ∈ sb.data :=
  ⟨h.nmeta_le, hroom⟩

/-- The next block has been taken and its number stored in place `p`. -/
structure Links (m : State) (T : Table) (p : Place) (m' : State) (T' : Table) : Prop where
  freeinode : m'.freeinode = m.freeinode
  freeblock : m'.freeblock = m.freeblock + 1
  sectors : m'.sectors = m.sectors
  ledger : Ledger sb T' ∅ m'.completed
  target : ∀ q, target sb T' m'.completed q =
    if q = p then some m.freeblock else target sb T m.completed q
  same : ∀ b, b ≠ sb.bmapstart → (∀ i, addrTarget sb T i indirectSlot ≠ some b) →
    m'.completed b = m.completed b

theorem Base.take_ledger (h : Base m T) (hroom : m.freeblock < fsSize) :
    Ledger sb T {m.freeblock} m.take.completed := by
  have hfree : marked sb m.completed m.freeblock = false := by
    rw [marked_completed h.le_fsSize hroom, decide_eq_false_iff_not]
    exact lt_irrefl _
  have htake := h.ledger.take (d := m.completed m.freeblock) (h.mem_data hroom) hfree
  have hne : m.freeblock ≠ sb.bmapstart := ne_bmapstart_of_mem_data (h.mem_data hroom)
  have hbitmap : m.completed sb.bmapstart = bitmap m.freeblock := update_self ..
  rw [bblock_eq hroom, mod_bpb hroom, insert_empty_eq, hbitmap, ← completed_take] at htake
  -- the block itself is written with what it holds already
  rwa [update_eq_self_iff.2] at htake
  rw [completed_take, update_of_ne hne]

theorem take_completed_of_ne (h : b ≠ sb.bmapstart) : m.take.completed b = m.completed b := by
  rw [completed_take, update_of_ne h]

theorem Base.target_take (h : Base m T) (q : Place) :
    target sb T m.take.completed q = target sb T m.completed q :=
  target_congr (fun _ _ => rfl) (fun i _ hb => take_completed_of_ne
    (ne_bmapstart_of_mem_data (h.ledger.mem_data (p := .addr i indirectSlot) hb))) q

section

variable (h : Base m T) (hroom : m.freeblock < fsSize)
include h hroom

theorem Base.take_zero : m.take.completed m.freeblock = zeroes := by
  rw [take_completed_of_ne (ne_bmapstart_of_mem_data (h.mem_data hroom)), h.zero _ (le_refl _)]

theorem Base.linkAddr (hi : inum < nInodes) (htype : (T inum).type ≠ 0) {k : Fin (nDirect + 1)}
    (hk : (T inum).addrs k = 0) :
    Links m T (.addr inum k) m.take
      (update T inum ((T inum).setAddr k (BitVec.ofNat 32 m.freeblock))) := by
  have hzero : ∀ j, wordAt (m.take.completed m.freeblock) j = 0 := fun j => by
    rw [h.take_zero hroom]
    exact wordAt_zero j
  have hledger := (h.take_ledger hroom).linkAddr (Set.mem_singleton _) hi htype hk hzero
  rw [Set.sdiff_self] at hledger
  refine ⟨rfl, rfl, rfl, hledger, fun q => ?_, fun b hb _ => take_completed_of_ne hb⟩
  rw [Ledger.target_linkAddr (h.mem_data hroom) hi htype hk hzero, h.target_take]

theorem Base.linkEntry {a : ℕ} (ha : addrTarget sb T inum indirectSlot = some a) {j : Fin nIndirect}
    (hj : wordAt (m.sector a) j = 0) :
    Links m T (.entry inum j)
      (m.take.write a (setWord (m.sector a) j (BitVec.ofNat 32 m.freeblock))) T := by
  have hdata := h.ledger.mem_data (p := .addr inum indirectSlot) ha
  have hne := ne_bmapstart_of_mem_data hdata
  have hsame : m.take.completed a = m.sector a := by
    rw [take_completed_of_ne hne, sector_of_mem_data hdata]
  have hledger := h.take_ledger hroom
  have hwrite : (m.take.write a (setWord (m.sector a) j (BitVec.ofNat 32 m.freeblock))).completed =
      update m.take.completed a (setWord (m.sector a) j (BitVec.ofNat 32 m.freeblock)) :=
    completed_write hne
  have hlinked := hledger.linkEntry (Set.mem_singleton _) ha (by rw [hsame, hj])
  rw [Set.sdiff_self, hsame] at hlinked
  refine ⟨rfl, rfl, write_sectors ?_, hwrite ▸ hlinked, fun q => ?_, fun b hb hindirect => ?_⟩
  · have hsectors : m.take.sectors = fsSize := h.sectors
    rw [hsectors]
    exact hdata.2
  · rw [hwrite]
    split_ifs with hq
    · rw [hq, ← hsame, Ledger.target_setWord_self _ _ _ ha, pointer_ofNat (h.mem_data hroom)]
    · rw [← hsame, hledger.target_setWord_of_ne ha hq, h.target_take]
  · have hba : b ≠ a := by
      rintro rfl
      exact hindirect inum ha
    rw [hwrite, update_of_ne hba, take_completed_of_ne hb]

end

namespace Links

section

variable (hl : Links m T p m' T') (h : Base m T)
include hl h

theorem same_of_notMem (hne : b ≠ sb.bmapstart) (hb : b < nmeta ∨ m.freeblock ≤ b) :
    m'.completed b = m.completed b := by
  refine hl.same b hne fun i hi => ?_
  have hdata := h.ledger.mem_data (p := .addr i indirectSlot) hi
  have hlt := h.lt_freeblock (p := .addr i indirectSlot) hi
  rcases hb with hb | hb
  · exact not_lt.2 hdata.1 hb
  · exact not_lt.2 hb hlt

theorem base (hroom : m.freeblock < fsSize) :
    Base m' T' where
  sectors := hl.sectors.trans h.sectors
  nmeta_le := by
    rw [hl.freeblock]
    exact le_succ_of_le h.nmeta_le
  le_fsSize := by
    rw [hl.freeblock]
    exact hroom
  super := by
    rw [hl.same_of_notMem h (by decide) (.inl (by decide)), h.super]
  ledger := hl.ledger
  zero b hb := by
    rw [hl.freeblock] at hb
    have hle : m.freeblock ≤ b := le_of_succ_le hb
    have hne : b ≠ sb.bmapstart := ne_of_gt
      (lt_of_lt_of_le sb.bmapstart_lt_nmeta (le_trans h.nmeta_le hle))
    rw [hl.same_of_notMem h hne (.inr hle), h.zero b hle]

theorem iblock {i : ℕ} (hi : i < nInodes) :
    m'.completed (sb.iblock i) = m.completed (sb.iblock i) :=
  hl.same_of_notMem h (Nat.ne_of_lt (iblock_lt_bmapstart hi))
    (.inl (iblock_lt_nmeta hi))

theorem same_of_blockTarget {i bn b : ℕ} (hb : blockTarget sb T m.completed i bn = some b) :
    m'.completed b = m.completed b := by
  obtain ⟨q, -, hq⟩ := exists_placeOf hb
  exact hl.same b (ne_bmapstart_of_mem_data (h.ledger.mem_data hq))
    (ne_indirect_of_blockTarget h.ledger hb)

end

theorem layout_indirect (hl : Links m T (.addr inum indirectSlot) m' T')
    (h : Layout m T data nb) (hroom : m.freeblock < fsSize) : Layout m' T' data nb where
  toBase := hl.base h.toBase hroom
  stored i hi := by
    refine (h.stored i hi).congr (fun bn => ?_) fun bn b hb => hl.same_of_blockTarget h.toBase hb
    rw [blockTarget_eq_bind, blockTarget_eq_bind]
    cases hq : placeOf i bn with
    | none => rfl
    | some q =>
      have hne : q ≠ .addr inum indirectSlot := by
        rintro rfl
        exact placeOf_ne_indirect i bn inum hq
      rw [bind_some, bind_some, hl.target, if_neg hne]

theorem blockTarget_eq (hl : Links m T p m' T') {fbn : ℕ} (hp : placeOf inum fbn = some p)
    (i bn : ℕ) : blockTarget sb T' m'.completed i bn =
      if i = inum ∧ bn = fbn then some m.freeblock else blockTarget sb T m.completed i bn := by
  rw [blockTarget_eq_bind, blockTarget_eq_bind]
  split_ifs with hin
  · rw [hin.1, hin.2, hp, bind_some, hl.target, if_pos rfl]
  · cases hq : placeOf i bn with
    | none => rfl
    | some q =>
      have hne : q ≠ p := by
        rintro rfl
        exact hin (placeOf_inj hq hp)
      rw [bind_some, bind_some, hl.target, if_neg hne]

theorem layout_block (hl : Links m T p m' T') (h : Layout m T data nb)
    (hroom : m.freeblock < fsSize) (hp : placeOf inum (nb inum) = some p)
    (hlen : (data inum).length ≤ nb inum * bSize) :
    Layout m' T' data (update nb inum (nb inum + 1)) where
  toBase := hl.base h.toBase hroom
  stored i hi := by
    have hblock : ∀ bn b, blockTarget sb T m.completed i bn = some b →
        m'.completed b = m.completed b := fun bn b hb => hl.same_of_blockTarget h.toBase hb
    by_cases hii : i = inum
    · subst hii
      rw [update_self]
      refine (h.stored i hi).grow hlen (fun bn => ?_) hblock (x := m.freeblock) ?_
      · rw [hl.blockTarget_eq hp]
        simp only [true_and]
      · rw [hl.same_of_notMem h.toBase (ne_bmapstart_of_mem_data (h.mem_data hroom))
          (.inr (le_refl _)), h.zero _ (le_refl _)]
    · rw [update_of_ne hii]
      refine (h.stored i hi).congr (fun bn => ?_) hblock
      rw [hl.blockTarget_eq hp, if_neg fun hin => hii hin.1]

end Links

theorem Layout.append (h : Layout m T data nb) (hi : inum < nInodes) {fbn x n : ℕ}
    (hx : blockTarget sb T m.completed inum fbn = some x)
    {p : List (BitVec 8)} (hstart : fbn * bSize ≤ (data inum).length)
    (hend : (data inum).length + n ≤ (fbn + 1) * bSize) (hn : n ≤ p.length) :
    Layout (m.write x (store (m.sector x) ((data inum).length - fbn * bSize) n
      fun j => p.getD j 0)) T (update data inum (data inum ++ p.take n)) nb := by
  obtain ⟨q, hq, hqx⟩ := exists_placeOf hx
  have hdata := h.ledger.mem_data hqx
  have hne := ne_bmapstart_of_mem_data hdata
  rw [sector_of_mem_data hdata]
  generalize hbuf : store (m.completed x) ((data inum).length - fbn * bSize) n
    (fun j => p.getD j 0) = buf
  have hwrite : (m.write x buf).completed = update m.completed x buf :=
    completed_write hne
  have hindirect : ∀ j, q ≠ .addr j indirectSlot := by
    rintro j rfl
    exact placeOf_ne_indirect inum fbn j hq
  have hmap : ∀ i bn, blockTarget sb T (m.write x buf).completed i bn =
      blockTarget sb T m.completed i bn := by
    refine blockTarget_of_target (target_congr (fun _ _ => rfl) fun i b hb => ?_)
    rw [hwrite, update_of_ne]
    rintro rfl
    exact ne_indirect_of_blockTarget h.ledger hx i hb
  have hlow : ∀ b, b < nmeta ∨ m.freeblock ≤ b → (m.write x buf).completed b = m.completed b := by
    intro b hb
    have hlt := h.lt_freeblock hqx
    have hge : nmeta ≤ x := hdata.1
    rw [hwrite, update_of_ne (by omega)]
  constructor
  · refine ⟨(write_sectors (h.sectors ▸ hdata.2)).trans h.sectors, h.nmeta_le, h.le_fsSize, ?_,
      ?_, fun b hb => ?_⟩
    · rw [hlow 1 (.inl (by decide)), h.super]
    · rw [hwrite]
      exact h.ledger.writeData hqx hindirect
    · rw [hlow b (.inr hb), h.zero b hb]
  · intro i hi'
    by_cases hii : i = inum
    · subst hii
      rw [update_self]
      refine (h.stored i hi').append hx (fun bn hbn => ?_) (hmap i) hstart hend hn ?_
      · exact (eq_of_blockTarget h.ledger hbn hx).2
      · rw [hwrite, hbuf]
    · rw [update_of_ne hii]
      refine (h.stored i hi').congr (hmap i) fun bn b hb => ?_
      rw [hwrite, update_of_ne]
      rintro rfl
      exact hii (eq_of_blockTarget h.ledger hb hx).1

/-- An inode written to the disk, its type and its addresses being those of the table. -/
theorem Layout.writeInode (h : Layout m T data nb) (hi : inum < nInodes) {x : Dinode}
    (hT : ∀ j k, addrTarget sb (update T inum x) j k = addrTarget sb T j k) (buf : Block) :
    Layout (m.write (sb.iblock inum) buf) (update T inum x) data nb := by
  have hne : sb.iblock inum ≠ sb.bmapstart := Nat.ne_of_lt (iblock_lt_bmapstart hi)
  have hlt : sb.iblock inum < nmeta := iblock_lt_nmeta hi
  have hge : 32 ≤ sb.iblock inum := Nat.le_add_left _ _
  have hwrite : (m.write (sb.iblock inum) buf).completed =
      update m.completed (sb.iblock inum) buf := completed_write hne
  have htarget : ∀ q, target sb (update T inum x)
      (m.write (sb.iblock inum) buf).completed q = target sb T m.completed q := by
    refine target_congr hT fun i b hb => ?_
    have hdata := h.ledger.mem_data (p := .addr i indirectSlot) hb
    rw [hwrite, update_of_ne (iblock_ne_of_mem_data hi hdata).symm]
  constructor
  · refine ⟨(write_sectors ?_).trans h.sectors, h.nmeta_le, h.le_fsSize, ?_, ?_, fun b hb => ?_⟩
    · rw [h.sectors]
      exact Nat.lt_trans hlt (by decide)
    · rw [hwrite, update_of_ne (by omega), h.super]
    · rw [hwrite]
      exact (h.ledger.retable hT).writeInodes hi
    · have hle : nmeta ≤ b := Nat.le_trans h.nmeta_le hb
      rw [hwrite, update_of_ne (by omega), h.zero b hb]
  · intro i hi'
    refine (h.stored i hi').congr (blockTarget_of_target htarget i) fun bn b hb => ?_
    obtain ⟨q, -, hq⟩ := exists_placeOf hb
    have hdata := h.ledger.mem_data hq
    rw [hwrite, update_of_ne (iblock_ne_of_mem_data hi hdata).symm]

end Layout

end Xv6.Mkfs
