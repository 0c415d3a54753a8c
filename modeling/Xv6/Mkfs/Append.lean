import Xv6.Mkfs.Layout

/-!
# Appending to a file

What `iappend` and `ialloc` do to the image. `iappend` adds its bytes to one file and leaves
the others alone. It takes the blocks that the bytes need and no others, and it ends early only
if the file would get too long or the disk too full.
-/

namespace Xv6.Mkfs

open ByteBlock Routine FileSystem Function List Nat

variable {T : Table} {data : ℕ → List (BitVec 8)}

variable {E : Exit → State → Prop} {l : List (BitVec 8)}

section Blocks

variable {m m' m'' : State} {nb : ℕ → ℕ} {inum fbn : ℕ}

/-- The inode area stays as it is, and at most `n` blocks are handed out. -/
structure Kept (m m' : State) (n : ℕ) : Prop where
  inodes : ∀ i < nInodes, m'.completed (sb.iblock i) = m.completed (sb.iblock i)
  freeinode : m'.freeinode = m.freeinode
  freeblock : m'.freeblock ≤ m.freeblock + n

theorem Kept.mono {n n' : ℕ} (h : Kept m m' n) (hn : n ≤ n') : Kept m m' n' :=
  ⟨h.inodes, h.freeinode, Nat.le_trans h.freeblock (Nat.add_le_add_left hn _)⟩

theorem Kept.refl (m : State) (n : ℕ) : Kept m m n :=
  ⟨fun _ _ => rfl, rfl, le_add_right _ _⟩

theorem Kept.trans {n n' : ℕ} (h : Kept m m' n) (h' : Kept m' m'' n') : Kept m m'' (n + n') where
  inodes i hi := (h'.inodes i hi).trans (h.inodes i hi)
  freeinode := h'.freeinode.trans h.freeinode
  freeblock := by
    have hle := h.freeblock
    have hle' := h'.freeblock
    omega

theorem Links.kept {T' : Table} {p : Place} (hl : Links m T p m' T') (h : Base m T) :
    Kept m m' 1 where
  inodes _ hi := hl.iblock h hi
  freeinode := hl.freeinode
  freeblock := le_of_eq hl.freeblock

theorem toNat_ofNat {b : ℕ} (hb : b ≤ fsSize) : (BitVec.ofNat 32 b).toNat = b := by
  rw [BitVec.toNat_ofNat]
  exact mod_eq_of_lt (lt_of_le_of_lt hb (by decide))

theorem setAddr_addrs_self (x : Dinode) (k : Fin (nDirect + 1)) (w : BitVec 32) :
    (x.setAddr k w).addrs k = w :=
  update_self ..

theorem addrTarget_eq (hi : inum < nInodes) (htype : (T inum).type ≠ 0) (k : Fin (nDirect + 1)) :
    addrTarget sb T inum k = pointer ((T inum).addrs k) := by
  have hi' : inum < sb.ninodes := hi
  rw [addrTarget, if_pos hi', Dinode.pointer, if_neg htype]

/-- Block `fbn` of inode `inum` is in place, at `x`; the inode is now `din`. At most `n` blocks
have been taken for it. -/
structure Found (m : State) (T : Table) (data : ℕ → List (BitVec 8)) (nb : ℕ → ℕ)
    (inum fbn : ℕ) (din : Dinode) (x : ℕ) (n : ℕ) (m' : State) : Prop where
  layout : Layout m' (update T inum din) data (update nb inum (fbn + 1))
  block : blockTarget sb (update T inum din) m'.completed inum fbn = some x
  type : din.type = (T inum).type
  kept : Kept m m' n

/-- A block number has been chosen. If it is one of the disk, the block is in place. It is past
the end only if `n` blocks were not left. -/
structure Chosen (m : State) (T : Table) (data : ℕ → List (BitVec 8)) (nb : ℕ → ℕ)
    (inum fbn n : ℕ) (r : Dinode × ℕ) (m' : State) : Prop where
  sectors : m'.sectors = fsSize
  room : m.freeblock + n ≤ fsSize → r.2 < fsSize
  found : r.2 < fsSize → Found m T data nb inum fbn r.1 r.2 n m'

/-- The blocks that a file with `nb` blocks takes: with more than `nDirect` of them there is an
indirect block too. -/
def withIndirect (nb : ℕ) : ℕ := if nDirect < nb then nb + 1 else nb

theorem withIndirect_lt_succ (nb : ℕ) : withIndirect nb < withIndirect (nb + 1) := by
  unfold withIndirect
  split_ifs <;> omega

theorem withIndirect_missing {nb fbn : ℕ} (h : nb = fbn) :
    1 ≤ withIndirect (fbn + 1) - withIndirect nb := by
  rw [h]
  exact Nat.sub_pos_of_lt (withIndirect_lt_succ fbn)

theorem withIndirect_mono {nb nb' : ℕ} (h : nb ≤ nb') : withIndirect nb ≤ withIndirect nb' := by
  unfold withIndirect
  split_ifs <;> omega

theorem Layout.found (h : Layout m T data nb) (hi : inum < nInodes) {x n : ℕ}
    (hnb : nb inum ≤ fbn + 1) (hx : blockTarget sb T m.completed inum fbn = some x) :
    Found m T data nb inum fbn (T inum) x n m := by
  have hlt : fbn < nb inum := ((h.stored inum hi).blocks fbn).1 (by rw [hx]; simp)
  have hnb' : nb inum = fbn + 1 := le_antisymm hnb hlt
  refine ⟨?_, ?_, rfl, Kept.refl m n⟩
  · rw [← hnb', update_eq_self, update_eq_self]
    exact h
  · rw [update_eq_self]
    exact hx

theorem Layout.eq_of_missing (h : Layout m T data nb) (hi : inum < nInodes) (hfbn : fbn ≤ nb inum)
    (hnone : blockTarget sb T m.completed inum fbn = none) : nb inum = fbn := by
  refine Nat.le_antisymm (Nat.le_of_not_lt fun hlt => ?_) hfbn
  exact ((h.stored inum hi).blocks fbn).2 hlt hnone

variable (h : Layout m T data nb) (hi : inum < nInodes) (htype : (T inum).type ≠ 0)
  (hlen : (data inum).length ≤ nb inum * bSize) (hfbn : fbn ≤ nb inum)
  (hnb : nb inum ≤ fbn + 1)

include h hi htype hlen hfbn hnb

theorem blockFor_direct (hdirect : fbn < nDirect) {n : ℕ} (hn : nb inum = fbn → 1 ≤ n) :
    wp (blockFor (T inum) fbn) (Chosen m T data nb inum fbn n) (fun _ _ => False) m := by
  have htarget : blockTarget sb T m.completed inum fbn = pointer ((T inum).addrs (slotOf fbn)) := by
    rw [blockTarget, if_pos hdirect, target, addrTarget_eq hi htype]
  have hplace : placeOf inum fbn = some (.addr inum (slotOf fbn)) := by
    rw [placeOf, if_pos hdirect]
  rw [blockFor, if_pos hdirect]
  simp only [addrOrNext, nextBlock, wp_bind, wp_ite, wp_look, wp_update, wp_pure]
  constructor
  · intro hzero
    rw [setAddr_addrs_self, toNat_ofNat h.le_fsSize]
    rw [hzero, pointer_zero] at htarget
    obtain rfl := h.eq_of_missing hi hfbn htarget
    have hone : 1 ≤ n := hn rfl
    refine ⟨h.sectors, fun hroom => Nat.lt_of_lt_of_le (Nat.lt_add_of_pos_right hone) hroom,
      fun hroom => ?_⟩
    have hl := h.linkAddr hroom hi htype hzero
    refine ⟨hl.layout_block h hroom hplace hlen, ?_, rfl, (hl.kept h.toBase).mono hone⟩
    rw [hl.blockTarget_eq hplace, if_pos ⟨rfl, rfl⟩]
  · intro hne
    have hx : blockTarget sb T m.completed inum fbn = some ((T inum).addrs (slotOf fbn)).toNat := by
      rw [htarget, pointer, if_neg hne]
    obtain ⟨q, -, hq⟩ := exists_placeOf hx
    exact ⟨h.sectors, fun _ => (h.ledger.mem_data hq).2, fun _ => h.found hi hnb hx⟩

omit htype

theorem entryOrNext_spec {a : ℕ} (ha : addrTarget sb T inum indirectSlot = some a)
    (hdirect : ¬ fbn < nDirect) (hmax : fbn < maxFile) {n : ℕ} (hn : nb inum = fbn → 1 ≤ n) :
    wp (entryOrNext a (fbn - nDirect))
      (fun x m' => m'.sectors = fsSize ∧ (m.freeblock + n ≤ fsSize → x < fsSize) ∧
        (x < fsSize → Found m T data nb inum fbn (T inum) x n m'))
      (fun _ _ => False) m := by
  have hj : fbn - nDirect < nIndirect := by
    have hmax' : fbn < nDirect + nIndirect := hmax
    omega
  have hdata := h.ledger.mem_data (p := .addr inum indirectSlot) ha
  have hplace : placeOf inum fbn = some (.entry inum ⟨fbn - nDirect, hj⟩) := by
    rw [placeOf, if_neg hdirect, dif_pos hj]
  have htarget : blockTarget sb T m.completed inum fbn =
      pointer (wordAt (m.sector a) (fbn - nDirect)) := by
    rw [blockTarget, if_neg hdirect, dif_pos hj, target, ha, Option.bind_some,
      sector_of_mem_data hdata]
  simp only [entryOrNext, nextBlock, wsect, wp_bind, wp_rsect, wp_ite, wp_look, wp_update, wp_pure]
  refine ⟨fun _ => ⟨fun hzero => ?_, fun hne => ?_⟩, fun hlt => hlt (h.sectors ▸ hdata.2)⟩
  · rw [wordAt_setWord_self _ _ hj, toNat_ofNat h.le_fsSize]
    rw [hzero, pointer_zero] at htarget
    obtain rfl := h.eq_of_missing hi hfbn htarget
    have hone : 1 ≤ n := hn rfl
    refine ⟨(write_sectors (h.sectors ▸ hdata.2)).trans h.sectors,
      fun hroom => Nat.lt_of_lt_of_le (Nat.lt_add_of_pos_right hone) hroom, fun hroom => ?_⟩
    have hl := h.linkEntry hroom (j := ⟨nb inum - nDirect, hj⟩) ha hzero
    refine ⟨?_, ?_, rfl, (hl.kept h.toBase).mono hone⟩
    · rw [update_eq_self]
      exact hl.layout_block h hroom hplace hlen
    · rw [update_eq_self, hl.blockTarget_eq hplace, if_pos ⟨rfl, rfl⟩]
  · have hx : blockTarget sb T m.completed inum fbn =
        some (wordAt (m.sector a) (fbn - nDirect)).toNat := by
      rw [htarget, pointer, if_neg hne]
    obtain ⟨q, -, hq⟩ := exists_placeOf hx
    exact ⟨h.sectors, fun _ => (h.ledger.mem_data hq).2, fun _ => h.found hi hnb hx⟩

include htype

omit hlen hnb in
theorem eq_nDirect_of_addrs (hdirect : ¬ fbn < nDirect) (hzero : (T inum).addrs indirectSlot = 0) :
    nb inum = fbn ∧ fbn = nDirect := by
  have hle : nb inum ≤ nDirect := by
    refine Nat.le_of_not_lt fun hlt => ((h.stored inum hi).blocks nDirect).2 hlt ?_
    rw [blockTarget, if_neg (Nat.lt_irrefl _), dif_pos (by decide), target,
      addrTarget_eq hi htype, hzero, pointer_zero, Option.bind_none]
  omega

theorem blockFor_indirect (hdirect : ¬ fbn < nDirect) (hmax : fbn < maxFile) :
    wp (blockFor (T inum) fbn)
      (Chosen m T data nb inum fbn (withIndirect (fbn + 1) - withIndirect (nb inum)))
      (fun _ _ => ¬ m.freeblock + (withIndirect (fbn + 1) - withIndirect (nb inum)) ≤ fsSize)
      m := by
  rw [blockFor, if_neg hdirect]
  simp only [addrOrNext, nextBlock, wp_bind, wp_ite, wp_look, wp_update, wp_pure]
  constructor
  · intro hzero
    obtain ⟨hnb', rfl⟩ := eq_nDirect_of_addrs h hi htype hfbn hdirect hzero
    have htwo : withIndirect (nDirect + 1) - withIndirect (nb inum) = 2 := by
      rw [hnb']
      rfl
    rw [setAddr_addrs_self, toNat_ofNat h.le_fsSize, htwo]
    by_cases hroom : m.freeblock < fsSize
    · -- the indirect block is new, and so is its entry
      have hl := h.linkAddr hroom hi htype hzero
      have hlayout := hl.layout_indirect h hroom
      have ha := hl.target (.addr inum indirectSlot)
      rw [if_pos rfl] at ha
      refine wp_mono_ok (entryOrNext_spec hlayout hi hlen hfbn hnb ha hdirect hmax (n := 1)
        fun _ => le_refl 1) ?_
      rintro x m' ⟨hsectors, hroom', hfound⟩
      have hfree : m.take.freeblock = m.freeblock + 1 := rfl
      refine ⟨hsectors, fun hr => hroom' (by omega), fun hx => ?_⟩
      obtain ⟨hlayout', hblock, -, hkept⟩ := hfound hx
      rw [update_self, update_idem] at hlayout' hblock
      exact ⟨hlayout', hblock, rfl, (hl.kept h.toBase).trans hkept⟩
    · have hsectors : m.take.sectors = fsSize := h.sectors
      simp only [entryOrNext, wp_bind, wp_rsect]
      exact ⟨fun hlt => absurd (hsectors ▸ hlt) hroom, fun _ => by omega⟩
  · intro hne
    have ha : addrTarget sb T inum indirectSlot = some ((T inum).addrs indirectSlot).toNat := by
      rw [addrTarget_eq hi htype, pointer, if_neg hne]
    refine wp_mono_ok (entryOrNext_spec h hi hlen hfbn hnb ha hdirect hmax withIndirect_missing) ?_
    rintro x m' ⟨hsectors, hroom, hfound⟩
    exact ⟨hsectors, hroom, hfound⟩

/-- `blockFor` takes the block that is missing, and an indirect block with the first one that
needs it. -/
theorem blockFor_spec (hmax : fbn < maxFile) :
    wp (blockFor (T inum) fbn)
      (Chosen m T data nb inum fbn (withIndirect (fbn + 1) - withIndirect (nb inum)))
      (fun _ _ => ¬ m.freeblock + (withIndirect (fbn + 1) - withIndirect (nb inum)) ≤ fsSize)
      m := by
  by_cases hdirect : fbn < nDirect
  · exact wp_mono_ok (blockFor_direct h hi htype hlen hfbn hnb hdirect withIndirect_missing)
      fun _ _ hr => hr
  · exact blockFor_indirect h hi htype hlen hfbn hnb hdirect hmax

end Blocks

section Loop

def blocksFor (l : List (BitVec 8)) : ℕ := (l.length + bSize - 1) / bSize

def fileBlocks (len : ℕ) : ℕ := withIndirect ((len + bSize - 1) / bSize)

theorem fileBlocks_mono {len len' : ℕ} (h : len ≤ len') : fileBlocks len ≤ fileBlocks len' :=
  withIndirect_mono (Nat.div_le_div_right (Nat.sub_le_sub_right (Nat.add_le_add_right h _) _))

def need (off n : ℕ) : ℕ := fileBlocks (off + n) - fileBlocks off

theorem fileBlocks_add_need (off n : ℕ) : fileBlocks off + need off n = fileBlocks (off + n) :=
  Nat.add_sub_cancel' (fileBlocks_mono (Nat.le_add_right off n))

/-- Appending `p` to a file `l` keeps within the longest file and the disk. -/
structure Room (m : State) (l p : List (BitVec 8)) : Prop where
  length_le : l.length + p.length ≤ maxFile * bSize
  blocks_le : m.freeblock + need l.length p.length ≤ fsSize

variable {m m' : State} {inum : ℕ} {p : List (BitVec 8)}

/-- The loop of `iappend` has added `p` to inode `inum`, whose size is still to be set. -/
structure Appended (m : State) (T : Table) (data : ℕ → List (BitVec 8)) (inum : ℕ)
    (p : List (BitVec 8)) (r : Dinode × ℕ) (m' : State) : Prop where
  layout : Layout m' (update T inum r.1) (update data inum (data inum ++ p))
    fun i => blocksFor (update data inum (data inum ++ p) i)
  off : r.2 = (data inum).length + p.length
  small : (data inum).length < 2 ^ 32 → r.2 < 2 ^ 32
  type : r.1.type = (T inum).type
  kept : Kept m m' (need (data inum).length p.length)

theorem appended_nil (h : Layout m T data fun i => blocksFor (data i)) :
    Appended m T data inum [] (T inum, (data inum).length) m := by
  refine ⟨?_, rfl, id, rfl, Kept.refl ..⟩
  rw [update_eq_self, append_nil, update_eq_self]
  exact h

/-- One round writes to block `fbn` up to its end or to the end of the bytes. -/
theorem Found.round {fbn x n taken : ℕ} {din : Dinode}
    (hfound : Found m T data (fun i => blocksFor (data i)) inum fbn din x taken m')
    (hi : inum < nInodes) (hfbn : fbn = (data inum).length / bSize)
    (hn : n = min p.length ((fbn + 1) * bSize - (data inum).length)) (hp : 0 < p.length) :
    Layout (m'.write x (store (m'.sector x) ((data inum).length - fbn * bSize) n
        fun j => p.getD j 0)) (update T inum din)
      (update data inum (data inum ++ p.take n))
      fun i => blocksFor (update data inum (data inum ++ p.take n) i) := by
  have hstart : fbn * bSize ≤ (data inum).length := by
    rw [hfbn]
    exact div_mul_le_self _ _
  have hlt : (data inum).length < (fbn + 1) * bSize := by
    rw [hfbn, mul_comm]
    exact lt_mul_div_succ _ (by decide)
  have hnp : n ≤ p.length := by omega
  have hlayout := hfound.layout.append hi hfound.block hstart (by omega) hnp
  convert hlayout using 1
  funext i
  by_cases hii : i = inum
  · subst hii
    rw [update_self, update_self, blocksFor, length_append, length_take_of_le hnp]
    simp only [bSize] at hstart hlt hn ⊢
    omega
  · rw [update_of_ne hii, update_of_ne hii]

theorem need_round {len n : ℕ} (hlen : 0 < len)
    (hn : n = min len ((l.length / bSize + 1) * bSize - l.length)) :
    (withIndirect (l.length / bSize + 1) - withIndirect (blocksFor l)) +
      need (l.length + n) (len - n) = need l.length len := by
  have hround : fileBlocks (l.length + n) = withIndirect (l.length / bSize + 1) := by
    rw [fileBlocks]
    congr 1
    simp only [bSize] at hn ⊢
    omega
  have hstart : fileBlocks l.length ≤ fileBlocks (l.length + n) :=
    fileBlocks_mono (le_add_right _ n)
  have hrest := fileBlocks_add_need (l.length + n) (len - n)
  have hall := fileBlocks_add_need l.length len
  have hsum : l.length + n + (len - n) = l.length + len := by omega
  rw [hsum] at hrest
  have hblocks : withIndirect (blocksFor l) = fileBlocks l.length := rfl
  omega

theorem Room.rest {n : ℕ} (h : Room m l p) (hp : 0 < p.length)
    (hn : n = min p.length ((l.length / bSize + 1) * bSize - l.length))
    (hfree : m'.freeblock ≤ m.freeblock +
      (withIndirect (l.length / bSize + 1) - withIndirect (blocksFor l))) :
    Room m' (l ++ p.take n) (p.drop n) := by
  have hlen : (l ++ p.take n).length = l.length + n := by
    rw [length_append, length_take_of_le (by omega)]
  have hneed := need_round hp hn
  obtain ⟨hlength, hblocks⟩ := h
  constructor
  · rw [hlen, length_drop]
    omega
  · rw [hlen, length_drop]
    omega

theorem Found.appended {fbn x n : ℕ} {din : Dinode} {buf : Block} {m'' : State} {r : Dinode × ℕ}
    (hfound : Found m T data (fun i => blocksFor (data i)) inum fbn din x
      (withIndirect (fbn + 1) - withIndirect (blocksFor (data inum))) m')
    (hfbn : fbn = (data inum).length / bSize)
    (hn : n = min p.length ((fbn + 1) * bSize - (data inum).length)) (hp : 0 < p.length)
    (hmax : fbn < maxFile) (hrest : Appended (m'.write x buf) (update T inum din)
      (update data inum (data inum ++ p.take n)) inum (p.drop n) r m'') :
    Appended m T data inum p r m'' := by
  obtain ⟨q, -, hq⟩ := exists_placeOf hfound.block
  have hx := hfound.layout.ledger.mem_data hq
  have hkept : Kept m' (m'.write x buf) 0 := by
    refine ⟨fun i hi => ?_, rfl, le_refl _⟩
    rw [completed_write (ne_bmapstart_of_mem_data hx),
      update_of_ne (Superblock.iblock_ne_of_mem_data hi hx)]
  have hlen : (data inum ++ p.take n).length = (data inum).length + n := by
    rw [length_append, length_take_of_le (by omega)]
  obtain ⟨hlayout, hoff, hsmall, htype, hkept'⟩ := hrest
  simp only [update_self, update_idem, append_assoc,
    take_append_drop] at hlayout hoff hsmall htype hkept'
  rw [hlen, length_drop] at hoff hkept'
  refine ⟨hlayout, ?_, fun _ => hsmall ?_, htype.trans hfound.type, ?_⟩
  · omega
  · simp only [bSize, maxFile, nDirect, nIndirect] at hn hmax
    omega
  · subst hfbn
    exact ((hfound.kept.trans hkept).trans hkept').mono (need_round hp hn).le

theorem iappendLoop_spec (hi : inum < nInodes) (rounds : ℕ) :
    ∀ {m : State} {T : Table} {data : ℕ → List (BitVec 8)} {p : List (BitVec 8)},
      p.length ≤ rounds → (T inum).type ≠ 0 → (Layout m T data fun i => blocksFor (data i)) →
        wp (iappendLoop rounds (T inum) (data inum).length p) (Appended m T data inum p)
          (fun _ _ => ¬ Room m (data inum) p) m := by
  induction rounds with
  | zero =>
    intro m T data p hp _ h
    obtain rfl := length_eq_zero_iff.1 (Nat.le_zero.1 hp)
    exact appended_nil h
  | succ rounds ih =>
    intro m T data p hp htype h
    rw [iappendLoop, wp_ite]
    refine ⟨fun hpos => ?_, fun hnil => ?_⟩
    · have hneed : withIndirect ((data inum).length / bSize + 1) -
          withIndirect (blocksFor (data inum)) ≤ need (data inum).length p.length :=
        Nat.le_trans (Nat.le_add_right _ _) (need_round hpos rfl).le
      rw [wp_ite]
      refine ⟨fun hmax => ?_, fun hmax hroom => ?_⟩
      · rw [wp_bind]
        refine wp_mono (blockFor_spec h hi htype ?_ ?_ ?_ hmax) ?_ ?_
        · simp only [blocksFor, bSize]
          omega
        · simp only [blocksFor, bSize]
          omega
        · simp only [blocksFor, bSize]
          omega
        · rintro ⟨din, x⟩ m₁ hchosen
          simp only [wp_bind, wp_rsect, wsect, wp_update, hchosen.sectors]
          refine ⟨fun hx => ?_, fun hx hroom => ?_⟩
          · -- the bytes after this round are appended by the induction hypothesis
            have hfound := hchosen.found hx
            have hlayout := hfound.round hi rfl rfl hpos
            generalize hn : min p.length (((data inum).length / bSize + 1) * bSize -
              (data inum).length) = n at hlayout ⊢
            have hdrop : (p.drop n).length ≤ rounds := by
              simp only [length_drop, bSize] at hn ⊢
              omega
            have hrest := ih hdrop (by rwa [update_self, hfound.type]) hlayout
            rw [update_self, update_self, length_append, length_take_of_le (by omega)] at hrest
            refine wp_mono hrest (fun r m'' hr => ?_) fun _ _ hfull hroom => ?_
            · exact hfound.appended rfl hn.symm hpos hmax hr
            · exact hfull (hroom.rest hpos hn.symm hfound.kept.freeblock)
          · exact hx (hchosen.room (Nat.le_trans (Nat.add_le_add_left hneed _) hroom.blocks_le))
        · intro _ _ hfull hroom
          exact hfull (Nat.le_trans (Nat.add_le_add_left hneed _) hroom.blocks_le)
      · -- the assertion fails only for a file that would be too long
        have hlen := hroom.length_le
        simp only [bSize] at hmax hlen
        omega
    · obtain rfl := length_eq_zero_iff.1 (Nat.eq_zero_of_not_pos hnil)
      exact appended_nil h

end Loop

section Inodes

variable {m : State} {inum : ℕ}

/-- The image between two calls: the inodes on the disk are those of the table, and the files
they describe hold `data`. -/
structure Built (m : State) (T : Table) (data : ℕ → List (BitVec 8)) : Prop extends
    Layout m T data (fun i => blocksFor (data i)) where
  disk : ∀ i < nInodes, dinodeAt (m.completed (sb.iblock i)) (i % ipb) = T i
  size : ∀ i < nInodes, (T i).size.toNat = (data i).length
  typed : ∀ i < nInodes, 1 ≤ i → i < m.freeinode → (T i).type ≠ 0
  unused : ∀ i < nInodes, m.freeinode ≤ i → T i = Dinode.fresh 0

theorem iblock_lt_fsSize (hi : inum < nInodes) : sb.iblock inum < fsSize := by
  have hlt : sb.iblock inum < sb.nmeta := Superblock.iblock_lt_nmeta hi
  exact lt_trans hlt (by decide)

theorem iblock_ne_bmapstart (hi : inum < nInodes) : sb.iblock inum ≠ sb.bmapstart :=
  Nat.ne_of_lt (Superblock.iblock_lt_bmapstart hi)

theorem dinodeAt_setDinode_iblock (block : ℕ → Block) (x : Dinode) (i : ℕ) :
    dinodeAt (update block (sb.iblock inum)
        (setDinode (block (sb.iblock inum)) (inum % ipb) x) (sb.iblock i)) (i % ipb) =
      update (fun i => dinodeAt (block (sb.iblock i)) (i % ipb)) inum x i := by
  by_cases hii : i = inum
  · rw [hii, update_self, update_self, dinodeAt_setDinode _ _ (mod_lt inum (by decide))]
  · rw [update_of_ne hii]
    exact dinode_modifyBlock_of_ne (boot block) hii
      (f := fun d => setDinode d (inum % ipb) x) fun k hk => dinodeAt_setDinode_of_ne _ x hk

theorem winode_spec {x : Dinode} {Q : Unit → State → Prop} (hi : inum < nInodes)
    (hsectors : m.sectors = fsSize) (hQ : Q () (m.write (sb.iblock inum)
      (setDinode (m.sector (sb.iblock inum)) (inum % ipb) x))) : wp (winode inum x) Q E m := by
  simp only [winode, wsect, wp_bind, wp_rsect, wp_update, hsectors]
  exact ⟨fun _ => hQ, fun hlt => absurd (iblock_lt_fsSize hi) hlt⟩

theorem disk_winode (hi : inum < nInodes) (x : Dinode)
    (hdisk : ∀ i < nInodes, dinodeAt (m.completed (sb.iblock i)) (i % ipb) = T i) :
    ∀ i < nInodes, dinodeAt ((m.write (sb.iblock inum)
        (setDinode (m.sector (sb.iblock inum)) (inum % ipb) x)).completed (sb.iblock i)) (i % ipb) =
      update T inum x i := by
  intro i hi'
  rw [completed_write (iblock_ne_bmapstart hi), ← completed_of_ne (iblock_ne_bmapstart hi),
    dinodeAt_setDinode_iblock]
  by_cases hii : i = inum
  · rw [hii, update_self, update_self]
  · rw [update_of_ne hii, update_of_ne hii, hdisk i hi']

theorem Built.rinode (h : Built m T data) (hi : inum < nInodes) {Q : Dinode → State → Prop}
    (hQ : Q (T inum) m) : wp (rinode inum) Q E m := by
  simp only [Mkfs.rinode, wp_bind, wp_rsect, wp_pure, h.sectors]
  refine ⟨fun _ => ?_, fun hlt => absurd (iblock_lt_fsSize hi) hlt⟩
  rwa [← completed_of_ne (iblock_ne_bmapstart hi), h.disk inum hi]

theorem iappend_spec (h : Built m T data) (hi : inum < nInodes) (htype : (T inum).type ≠ 0)
    (p : List (BitVec 8)) :
    wp (iappend inum p) (fun _ m' => (∃ T', Built m' T' (update data inum (data inum ++ p)) ∧
          ∀ i, (T' i).type = (T i).type) ∧
        m'.freeinode = m.freeinode ∧
        m'.freeblock ≤ m.freeblock + need (data inum).length p.length)
      (fun _ _ => ¬ Room m (data inum) p) m := by
  rw [iappend, wp_bind]
  refine h.rinode hi ?_
  rw [wp_bind, h.size inum hi]
  refine wp_mono_post (iappendLoop_spec hi p.length (le_refl _) htype h.toLayout) ?_
  rintro ⟨din, off⟩ m' ⟨hlayout, hoff, hsmall, hdtype, hkept⟩
  refine winode_spec hi hlayout.sectors ⟨⟨update T inum { din with
    size := BitVec.ofNat 32 off }, ⟨?_, ?_, ?_, ?_, ?_⟩, ?_⟩, hkept.freeinode, hkept.freeblock⟩
  · -- the blocks of the inode are in place already; only its size changes
    have hT : ∀ j k, addrTarget sb (update (update T inum din) inum
        { din with size := BitVec.ofNat 32 off }) j k = addrTarget sb (update T inum din) j k :=
      addrTarget_update_of_addrs hi (by rw [update_self]) (by rw [update_self])
    have hwrite := hlayout.writeInode hi hT
      (setDinode (m'.sector (sb.iblock inum)) (inum % ipb) { din with size := BitVec.ofNat 32 off })
    rwa [update_idem] at hwrite
  · refine disk_winode hi _ fun i hi' => ?_
    rw [hkept.inodes i hi', h.disk i hi']
  · intro i hi'
    by_cases hii : i = inum
    · subst hii
      have hlt : off < 2 ^ 32 := hsmall (h.size i hi' ▸ (T i).size.isLt)
      rw [update_self, update_self, length_append, ← hoff]
      exact mod_eq_of_lt hlt
    · rw [update_of_ne hii, update_of_ne hii, h.size i hi']
  · intro i hi' hpos hlt
    by_cases hii : i = inum
    · rw [hii, update_self]
      exact hdtype ▸ htype
    · rw [update_of_ne hii]
      exact h.typed i hi' hpos (hkept.freeinode ▸ hlt)
  · intro i hi' hle
    have hle' : m.freeinode ≤ i := hkept.freeinode ▸ hle
    have hii : i ≠ inum := by
      rintro rfl
      exact htype (by rw [h.unused i hi' hle']; rfl)
    rw [update_of_ne hii, h.unused i hi' hle']
  · intro i
    by_cases hii : i = inum
    · rw [hii, update_self]
      exact hdtype
    · rw [update_of_ne hii]

theorem ialloc_spec (h : Built m T data) (hfree : m.freeinode < nInodes) {type : BitVec 16}
    (htype : type ≠ 0) :
    wp (ialloc type) (fun inum m' => inum = m.freeinode ∧ m'.freeinode = m.freeinode + 1 ∧
        m'.freeblock = m.freeblock ∧
        Built m' (update T m.freeinode (newInode type)) data)
      (fun _ _ => False) m := by
  simp only [ialloc, wp_bind, wp_look, wp_update, wp_pure]
  -- the counter is not part of the image
  have hlayout : Layout { m with freeinode := m.freeinode + 1 } T data
      fun i => blocksFor (data i) :=
    ⟨{ h with }, h.stored⟩
  have hunused := h.unused m.freeinode hfree (le_refl _)
  have hT : ∀ j k, addrTarget sb (update T m.freeinode (newInode type)) j k =
      addrTarget sb T j k := by
    intro j k
    by_cases hj : j = m.freeinode
    · have hj' : m.freeinode < sb.ninodes := hfree
      rw [hj, addrTarget_update_self _ hj', addrTarget, if_pos hj', hunused,
        Dinode.pointer_of_addrs rfl, Dinode.pointer_of_addrs rfl]
    · rw [addrTarget_update_of_ne _ hj]
  refine winode_spec hfree h.sectors ⟨trivial, rfl, rfl, hlayout.writeInode hfree hT _,
    disk_winode hfree _ h.disk, ?_, ?_, ?_⟩
  · intro i hi
    by_cases hii : i = m.freeinode
    · rw [hii, update_self, ← h.size _ hfree, hunused]
      rfl
    · rw [update_of_ne hii, h.size i hi]
  · intro i hi hpos hlt
    by_cases hii : i = m.freeinode
    · rw [hii, update_self]
      exact htype
    · have hlt' : i < m.freeinode + 1 := hlt
      rw [update_of_ne hii]
      exact h.typed i hi hpos (by omega)
  · intro i hi hle
    have hle' : m.freeinode + 1 ≤ i := hle
    rw [update_of_ne (by omega), h.unused i hi (by omega)]

end Inodes

end Xv6.Mkfs
