import Xv6.FileSystem.Alloc

/-!
# Truncation

`itrunc` frees the blocks of an inode one after another. It clears the bit of a
block before the address that refers to it, and the words of the indirect block
are never cleared at all. The proof therefore takes an address out of the table
first, so that the blocks reached through it are in hand, and then follows the
calls of `bfree` that give them back.
-/

namespace Xv6.FileSystem

open Routine Function Nat Set

variable {sb : Superblock} {T : Table} {ip : Slot} {v v' : Volume} {x : Dinode} {loose : Set ℕ}

/-- The inode of slot `ip` has become `x` in memory, and the blocks that only
its old version referred to are in `loose` or free. -/
structure Shrunk (sb : Superblock) (ip : Slot) (v : Volume) (T : Table) (x : Dinode)
    (loose : Set ℕ) (v' : Volume) : Prop where
  ledger : Ledger sb (update T (v.inode ip).inum x) loose v'.block
  slot_other : ∀ q, q ≠ ip → v'.inode q = v.inode q
  dinode : ∀ j < sb.ninodes, v'.dinode sb j = v.dinode sb j
  data : ∀ c ∈ sb.data, v'.block c = v.block c

theorem Shrunk.bfree (h : Shrunk sb ip v T x loose v') {b : ℕ} (hb : b ∈ loose) :
    wp (bfree sb b) (fun _ v'' => Shrunk sb ip v T x (loose \ {b}) v'' ∧ v''.inode = v'.inode)
      (fun _ _ => False) v' := by
  refine wp_mono_post (bfree_spec h.ledger hb) ?_
  rintro - v'' ⟨hledger, hframe⟩
  refine ⟨⟨hledger, fun q hq => ?_, fun j hj => ?_, fun c hc => ?_⟩, hframe.inode⟩
  · rw [hframe.inode, h.slot_other q hq]
  · rw [hframe.dinode j hj, h.dinode j hj]
  · rw [hframe.data c hc (notMem_empty c), h.data c hc]

theorem Shrunk.modifyInode (h : Shrunk sb ip v T x loose v')
    (f : Inode → Inode) : Shrunk sb ip v T x loose (v'.modifyInode ip f) :=
  { h with
    slot_other := fun q hq => by rw [v'.modifyInode_inode_of_ne f hq, h.slot_other q hq] }

theorem Shrunk.unlinkAddr (h : Shrunk sb ip v T x loose v')
    (hi : (v.inode ip).inum < sb.ninodes) (htype : x.type ≠ 0) (k : Fin (nDirect + 1)) :
    Shrunk sb ip v T (x.setAddr k 0)
      (loose ∪ Ledger.through sb (update T (v.inode ip).inum x) v'.block
        (v.inode ip).inum k) v' :=
  { h with
    ledger := by
      have hself : update T (v.inode ip).inum x (v.inode ip).inum = x :=
        update_self ..
      have hunlinked := h.ledger.unlinkAddr (k := k) hi (by rw [hself]; exact htype)
      rwa [hself, update_idem] at hunlinked }

theorem Dinode.setAddr_self {k : Fin (nDirect + 1)} (h : x.addrs k = 0) : x.setAddr k 0 = x := by
  rw [Dinode.setAddr, update_eq_self_iff.2 h.symm]

def ShrunkTo (sb : Superblock) (ip : Slot) (v : Volume) (T : Table) (x : Dinode)
    (v' : Volume) : Prop :=
  Shrunk sb ip v T x ∅ v' ∧ v'.inode ip = { v.inode ip with toDinode := x }

variable (hi : (v.inode ip).inum < sb.ninodes) (htype : x.type ≠ 0)

include hi htype in
theorem addrTarget_shrunk (k : Fin (nDirect + 1)) :
    addrTarget sb (update T (v.inode ip).inum x) (v.inode ip).inum k =
      pointer (x.addrs k) := by
  rw [addrTarget_update_self _ hi, Dinode.pointer, if_neg htype]

include hi htype in
theorem truncDirect_spec (h : ShrunkTo sb ip v T x v') {k : ℕ} (hk : k < nDirect) :
    wp (truncDirect sb ip k) (fun _ v'' => ShrunkTo sb ip v T (x.setAddr (slotOf k) 0) v'')
      (fun _ _ => False) v' := by
  obtain ⟨hshrunk, hslot⟩ := h
  simp only [truncDirect, wp_bind, wp_look, wp_ite, wp_pure, wp_update]
  rw [hslot]
  constructor
  · intro hzero
    rw [Dinode.setAddr_self hzero]
    exact ⟨hshrunk, hslot⟩
  · intro hne
    have haddr : addrTarget sb (update T (v.inode ip).inum x) (v.inode ip).inum
        (slotOf k) = some (x.addrs (slotOf k)).toNat := by
      rw [addrTarget_shrunk hi htype, pointer, if_neg hne]
    have hthrough : ∅ ∪ Ledger.through sb (update T (v.inode ip).inum x) v'.block
        (v.inode ip).inum (slotOf k) = {(x.addrs (slotOf k)).toNat} := by
      ext c
      simp only [Ledger.through, empty_union, mem_ofPred_eq, mem_singleton_iff]
      constructor
      · rintro ⟨p, rfl | ⟨hind, -⟩, hp⟩
        · rw [target, haddr] at hp
          exact (Option.some.inj hp).symm
        · exact absurd hind (slotOf_ne_indirectSlot hk)
      · rintro rfl
        exact ⟨_, .inl rfl, haddr⟩
    have hunlinked := hshrunk.unlinkAddr hi htype (slotOf k)
    rw [hthrough] at hunlinked
    refine wp_mono_post (hunlinked.bfree (mem_singleton _)) ?_
    rintro - v'' ⟨hfreed, hinode⟩
    rw [sdiff_self] at hfreed
    refine ⟨hfreed.modifyInode _, ?_⟩
    rw [v''.modifyInode_inode_self, hinode, hslot]
    rfl

/-- The blocks in hand once the indirect block's address is taken out and its
first `n` words are freed. -/
def listedFrom (d : Block) (a n : ℕ) : Set ℕ :=
  {c | c = a ∨ ∃ j, n ≤ j ∧ j < nIndirect ∧ pointer (wordAt d j) = some c}

/-- The words of an indirect block name distinct blocks, and none names the
indirect block itself. -/
structure Listing (d : Block) (a : ℕ) : Prop where
  inj : ∀ j l, j < nIndirect → l < nIndirect → ∀ c, pointer (wordAt d j) = some c →
    pointer (wordAt d l) = some c → j = l
  ne_self : ∀ j < nIndirect, pointer (wordAt d j) ≠ some a

theorem Listing.of_ledger {block : ℕ → Block} (h : Ledger sb T loose block)
    {i a : ℕ} (ha : addrTarget sb T i indirectSlot = some a) : Listing (block a) a := by
  have hentry : ∀ (j : ℕ) (hj : j < nIndirect),
      target sb T block (.entry i ⟨j, hj⟩) = pointer (wordAt (block a) j) := fun j hj => by
    simp only [target, ha, Option.bind_some]
  constructor
  · intro j l hj hl c hjc hlc
    have hinj := h.owned.inj (.entry i ⟨j, hj⟩) (.entry i ⟨l, hl⟩) c (by rw [hentry, hjc])
      (by rw [hentry, hlc])
    exact congrArg Fin.val (Place.entry.inj hinj).2
  · intro j hj hja
    have hinj := h.owned.inj (.entry i ⟨j, hj⟩) (.addr i indirectSlot) a (by rw [hentry, hja]) ha
    cases hinj

theorem Listing.listedFrom_succ {d : Block} {a n c : ℕ} (h : Listing d a) (hn : n < nIndirect)
    (hc : pointer (wordAt d n) = some c) : listedFrom d a n \ {c} = listedFrom d a (n + 1) := by
  ext e
  constructor
  · rintro ⟨rfl | ⟨j, hj, hj', he⟩, hne⟩
    · exact .inl rfl
    · refine .inr ⟨j, Nat.lt_of_le_of_ne hj ?_, hj', he⟩
      rintro rfl
      exact hne (Option.some.inj (he.symm.trans hc))
  · rintro (rfl | ⟨j, hj, hj', he⟩)
    · exact ⟨.inl rfl, fun hec => h.ne_self n hn (hec ▸ hc)⟩
    · refine ⟨.inr ⟨j, Nat.le_of_succ_le hj, hj', he⟩, ?_⟩
      rintro rfl
      exact Nat.ne_of_lt hj (h.inj n j hn hj' e hc he)

theorem listedFrom_skip {d : Block} {a n : ℕ} (hn : pointer (wordAt d n) = none) :
    listedFrom d a n = listedFrom d a (n + 1) := by
  ext e
  refine or_congr_right (exists_congr fun j => ?_)
  constructor
  · rintro ⟨hj, hj', he⟩
    refine ⟨lt_of_le_of_ne hj ?_, hj', he⟩
    rintro rfl
    simp [hn] at he
  · rintro ⟨hj, hj', he⟩
    exact ⟨le_of_succ_le hj, hj', he⟩

theorem listedFrom_end (d : Block) (a : ℕ) : listedFrom d a nIndirect = {a} := by
  ext e
  simp only [listedFrom, mem_ofPred_eq, mem_singleton_iff, or_iff_left_iff_imp]
  rintro ⟨j, hj, hj', -⟩
  exact absurd hj' (not_lt.2 hj)

theorem truncEntry_spec {a n : ℕ} (hlist : Listing (v.block a) a) (ha : a ∈ sb.data)
    (hn : n < nIndirect) (h : Shrunk sb ip v T x (listedFrom (v.block a) a n) v') :
    wp (truncEntry sb a n) (fun _ v'' =>
      Shrunk sb ip v T x (listedFrom (v.block a) a (n + 1)) v'' ∧ v''.inode = v'.inode)
      (fun _ _ => False) v' := by
  simp only [truncEntry, wp_bind, wp_look, wp_ite, wp_pure]
  rw [h.data a ha]
  constructor
  · intro hzero
    rw [← listedFrom_skip (pointer_eq_none.2 hzero)]
    exact ⟨h, trivial⟩
  · intro hne
    have hc : pointer (wordAt (v.block a) n) = some (wordAt (v.block a) n).toNat := by
      rw [pointer, if_neg hne]
    have hfreed := h.bfree (b := (wordAt (v.block a) n).toNat)
      (.inr ⟨n, le_refl n, hn, hc⟩)
    rwa [hlist.listedFrom_succ hn hc] at hfreed

include hi htype in
theorem truncIndirect_spec (h : ShrunkTo sb ip v T x v') :
    wp (truncIndirect sb ip) (fun _ v'' => ShrunkTo sb ip v T (x.setAddr indirectSlot 0) v'')
      (fun _ _ => False) v' := by
  obtain ⟨hshrunk, hslot⟩ := h
  simp only [truncIndirect, wp_bind, wp_look, wp_ite, wp_pure, wp_update]
  rw [hslot]
  constructor
  · intro hzero
    rw [Dinode.setAddr_self hzero]
    exact ⟨hshrunk, hslot⟩
  · intro hne
    generalize ha : (x.addrs indirectSlot).toNat = a
    have haddr : addrTarget sb (update T (v.inode ip).inum x) (v.inode ip).inum
        indirectSlot = some a := by
      rw [addrTarget_shrunk hi htype, pointer, if_neg hne, ha]
    have hdata := hshrunk.ledger.mem_data (p := .addr _ indirectSlot) haddr
    have hblock := hshrunk.data a hdata
    have hlist := Listing.of_ledger hshrunk.ledger haddr
    rw [hblock] at hlist
    have hthrough : ∅ ∪ Ledger.through sb (update T (v.inode ip).inum x) v'.block
        (v.inode ip).inum indirectSlot = listedFrom (v.block a) a 0 := by
      ext c
      simp only [Ledger.through, listedFrom, empty_union, mem_ofPred_eq]
      constructor
      · rintro ⟨p, rfl | ⟨-, j, rfl⟩, hp⟩
        · rw [target, haddr] at hp
          exact .inl (Option.some.inj hp).symm
        · simp only [target, haddr, Option.bind_some, hblock] at hp
          exact .inr ⟨j, zero_le _, j.isLt, hp⟩
      · rintro (rfl | ⟨j, -, hj, hc⟩)
        · exact ⟨_, .inl rfl, haddr⟩
        · refine ⟨.entry _ ⟨j, hj⟩, .inr ⟨trivial, _, rfl⟩, ?_⟩
          simp only [target, haddr, Option.bind_some, hblock, hc]
    have hunlinked := hshrunk.unlinkAddr hi htype indirectSlot
    rw [hthrough] at hunlinked
    -- before round `n` the blocks listed from word `n` on are still in hand
    have hloop := wp_forRange (f := truncEntry sb a) (E := fun _ _ => False) (n := nIndirect)
      (I := fun n v'' => Shrunk sb ip v T (x.setAddr indirectSlot 0)
        (listedFrom (v.block a) a n) v'' ∧ v''.inode = v'.inode) ⟨hunlinked, rfl⟩ ?_
    · refine wp_mono hloop ?_ fun _ _ h => h
      rintro - v₁ ⟨hfreed, hinode⟩
      rw [listedFrom_end] at hfreed
      refine wp_mono_post (hfreed.bfree (mem_singleton a)) ?_
      rintro - v₂ ⟨hfreed₂, hinode₂⟩
      rw [sdiff_self] at hfreed₂
      refine ⟨hfreed₂.modifyInode _, ?_⟩
      rw [v₂.modifyInode_inode_self, hinode₂, hinode, hslot]
      rfl
    · rintro n v₁ hn ⟨hfreed, hinode⟩
      refine wp_mono_post (truncEntry_spec hlist hdata hn hfreed) ?_
      rintro - v₂ ⟨hfreed₂, hinode₂⟩
      exact ⟨hfreed₂, hinode₂.trans hinode⟩

/-- The inode of slot `ip` has become `x` on disk, and nothing else changed
besides the free map and the slot itself. -/
structure Rewritten (sb : Superblock) (ip : Slot) (v : Volume) (T : Table) (x : Dinode)
    (v' : Volume) : Prop where
  ledger : Ledger sb (update T (v.inode ip).inum x) ∅ v'.block
  slot_other : ∀ q, q ≠ ip → v'.inode q = v.inode q
  dinode_self : v'.dinode sb (v.inode ip).inum = x
  dinode_other : ∀ j < sb.ninodes, j ≠ (v.inode ip).inum → v'.dinode sb j = v.dinode sb j
  data : ∀ c ∈ sb.data, v'.block c = v.block c

theorem Rewritten.modifyInode (h : Rewritten sb ip v T x v') (f : Inode → Inode) :
    Rewritten sb ip v T x (v'.modifyInode ip f) :=
  { h with
    slot_other := fun q hq => by rw [v'.modifyInode_inode_of_ne f hq, h.slot_other q hq] }

theorem Rewritten.of_modifyInode {f : Inode → Inode}
    (h : Rewritten sb ip (v.modifyInode ip f) T x v')
    (hf : (f (v.inode ip)).inum = (v.inode ip).inum) : Rewritten sb ip v T x v' := by
  obtain ⟨hledger, hslot, hself, hother, hdata⟩ := h
  rw [v.modifyInode_inode_self, hf] at hledger hself hother
  exact ⟨hledger, fun q hq => (hslot q hq).trans (v.modifyInode_inode_of_ne f hq), hself, hother,
    hdata⟩

theorem dinode_modifyBlock_self (v : Volume) (i : ℕ) (x : Dinode) :
    (v.modifyBlock (sb.iblock i) fun d => setDinode d (i % ipb) x).dinode sb i = x := by
  rw [Volume.dinode, v.modifyBlock_block_self, dinodeAt_setDinode _ _ (mod_lt i (by decide))]

theorem place_ne_of_iblock_eq {i j : ℕ} (hblock : sb.iblock j = sb.iblock i) (hji : j ≠ i) :
    j % ipb ≠ i % ipb := by
  intro hmod
  have hdiv : j / ipb = i / ipb := add_right_cancel hblock
  exact hji (by rw [← div_add_mod j ipb, ← div_add_mod i ipb, hdiv, hmod])

theorem dinode_modifyBlock_of_ne (v : Volume) {i j : ℕ} (hji : j ≠ i) {f : Block → Block}
    (hf : ∀ k, k ≠ i % ipb → dinodeAt (f (v.block (sb.iblock i))) k =
      dinodeAt (v.block (sb.iblock i)) k) :
    (v.modifyBlock (sb.iblock i) f).dinode sb j = v.dinode sb j := by
  by_cases hblock : sb.iblock j = sb.iblock i
  · rw [Volume.dinode, hblock, v.modifyBlock_block_self, hf _ (place_ne_of_iblock_eq hblock hji),
      Volume.dinode, hblock]
  · rw [Volume.dinode, v.modifyBlock_block_of_ne f hblock, Volume.dinode]

theorem iupdate_spec (v₀ : Volume) (hinum : (v'.inode ip).inum = (v₀.inode ip).inum)
    (hi : (v₀.inode ip).inum < sb.ninodes) (hslot : (v'.inode ip).toDinode = x)
    (hledger : Ledger sb (update T (v₀.inode ip).inum x) ∅ v'.block)
    (hother : ∀ q, q ≠ ip → v'.inode q = v₀.inode q)
    (hdinode : ∀ j < sb.ninodes, j ≠ (v₀.inode ip).inum → v'.dinode sb j = v₀.dinode sb j)
    (hdata : ∀ c ∈ sb.data, v'.block c = v₀.block c) :
    wp (iupdate sb ip) (fun _ v'' => Rewritten sb ip v₀ T x v'' ∧ v''.inode = v'.inode)
      (fun _ _ => False) v' := by
  simp only [iupdate, wp_bind, wp_look, wp_update]
  rw [hinum, hslot]
  constructor
  · constructor
    · exact hledger.writeInodes hi
    · exact hother
    · exact dinode_modifyBlock_self _ _ _
    · intro j hj hji
      rw [dinode_modifyBlock_of_ne v' hji
        (f := fun d => setDinode d ((v₀.inode ip).inum % ipb) x)
        (fun k hk => dinodeAt_setDinode_of_ne _ x hk), hdinode j hj hji]
    · intro c hc
      rw [v'.modifyBlock_block_of_ne _ (Superblock.iblock_ne_of_mem_data hi hc).symm, hdata c hc]
  · rfl

def Dinode.truncated (x : Dinode) : Dinode := { x with size := 0, addrs := fun _ => 0 }

theorem slotOf_val {k : ℕ} (hk : k < nDirect) : (slotOf k).val = k :=
  mod_eq_of_lt (lt_succ_of_lt hk)

/-- `itrunc` frees all blocks of an inode; `bfree` finds each of them in use. -/
theorem itrunc_spec (ho : Opened sb T ip v) (hledger : Ledger sb T ∅ v.block) :
    wp (itrunc sb ip)
      (fun _ v' => Rewritten sb ip v T (T (v.inode ip).inum).truncated v' ∧
        v'.inode ip = { v.inode ip with toDinode := (T (v.inode ip).inum).truncated })
      (fun _ _ => False) v := by
  simp only [itrunc, wp_bind, wp_update]
  -- before round `n` the first `n` addresses are zero
  have hloop := wp_forRange (f := truncDirect sb ip) (E := fun _ _ => False) (n := nDirect)
    (I := fun n v' => ∃ a, ShrunkTo sb ip v T { T (v.inode ip).inum with addrs := a } v' ∧
      ∀ k : Fin (nDirect + 1), k.val < n → a k = 0) (s := v) ?_ ?_
  · refine wp_mono hloop ?_ fun _ _ h => h
    rintro - v₁ ⟨a, hshrunk, hzero⟩
    have htype : ({ T (v.inode ip).inum with addrs := a } : Dinode).type ≠ 0 := ho.type_ne
    refine wp_mono_post (truncIndirect_spec ho.inum_lt htype hshrunk) ?_
    rintro - v₂ ⟨hshrunk₂, hslot₂⟩
    have haddrs : update a indirectSlot 0 = fun _ => 0 := by
      funext k
      by_cases hk : k = indirectSlot
      · rw [hk, update_self]
      · rw [update_of_ne hk, hzero k (Fin.val_lt_last hk)]
    simp only [Dinode.setAddr, haddrs] at hshrunk₂ hslot₂
    have hledger₂ : Ledger sb (update T (v.inode ip).inum
        (T (v.inode ip).inum).truncated) ∅ v₂.block := by
      refine hshrunk₂.ledger.retable fun j k => ?_
      by_cases hj : j = (v.inode ip).inum
      · rw [hj, addrTarget_update_self _ ho.inum_lt, addrTarget_update_self _ ho.inum_lt]
        rfl
      · rw [addrTarget_update_of_ne _ hj, addrTarget_update_of_ne _ hj]
    have hcleared := hshrunk₂.modifyInode fun x => { x with size := 0 }
    refine wp_mono_post (iupdate_spec v (T := T) ?_ ho.inum_lt ?_ hledger₂ hcleared.slot_other
      (fun j hj _ => hcleared.dinode j hj) hcleared.data) ?_
    · rw [v₂.modifyInode_inode_self, hslot₂]
    · rw [v₂.modifyInode_inode_self, hslot₂]
      rfl
    · rintro - v₃ ⟨hrewritten, hinode⟩
      refine ⟨hrewritten, ?_⟩
      rw [hinode, v₂.modifyInode_inode_self, hslot₂]
      rfl
  · have hself : update T (v.inode ip).inum (T (v.inode ip).inum) = T :=
      update_eq_self ..
    refine ⟨(T (v.inode ip).inum).addrs, ⟨⟨?_, fun _ _ => rfl, fun _ _ => rfl, fun _ _ => rfl⟩,
      ?_⟩, fun k hk => absurd hk (not_lt_zero _)⟩
    · rwa [hself]
    · rw [← ho.copy]
  · rintro n v' hn ⟨a, hshrunk, hzero⟩
    have htype : ({ T (v.inode ip).inum with addrs := a } : Dinode).type ≠ 0 := ho.type_ne
    refine wp_mono_post (truncDirect_spec ho.inum_lt htype hshrunk hn) ?_
    intro _ v'' h
    refine ⟨update a (slotOf n) 0, h, fun k hk => ?_⟩
    by_cases hkn : k = slotOf n
    · rw [hkn, update_self]
    · have hne : k.val ≠ n := fun hval => hkn (Fin.ext (hval.trans (slotOf_val hn).symm))
      rw [update_of_ne hkn, hzero k (by omega)]

def Dinode.freed (x : Dinode) : Dinode := { x.truncated with type := 0 }

theorem ifree_spec (ho : Opened sb T ip v) (hledger : Ledger sb T ∅ v.block) :
    wp (ifree sb ip)
      (fun _ v' => Rewritten sb ip v T (T (v.inode ip).inum).freed v' ∧ v'.inode ip =
        { v.inode ip with toDinode := (T (v.inode ip).inum).freed, valid := false })
      (fun _ _ => False) v := by
  simp only [ifree, wp_bind, wp_update]
  refine wp_mono_post (itrunc_spec ho hledger) ?_
  rintro - v₁ ⟨htrunc, hslot⟩
  -- a truncated inode refers to nothing, so it may change its type
  have hledger₁ : Ledger sb (update T (v.inode ip).inum
      (T (v.inode ip).inum).freed) ∅ v₁.block := by
    refine htrunc.ledger.retable fun j k => ?_
    by_cases hj : j = (v.inode ip).inum
    · rw [hj, addrTarget_update_self _ ho.inum_lt, addrTarget_update_self _ ho.inum_lt,
        Dinode.pointer_of_addrs rfl, Dinode.pointer_of_addrs rfl]
    · rw [addrTarget_update_of_ne _ hj, addrTarget_update_of_ne _ hj]
  have htyped := htrunc.modifyInode fun x => { x with type := 0 }
  refine wp_mono_post (iupdate_spec v (T := T) ?_ ho.inum_lt ?_ hledger₁ htyped.slot_other
    htyped.dinode_other htyped.data) ?_
  · rw [v₁.modifyInode_inode_self, hslot]
  · rw [v₁.modifyInode_inode_self, hslot]
    rfl
  · rintro - v₂ ⟨hrewritten, hinode⟩
    refine ⟨hrewritten.modifyInode _, ?_⟩
    rw [v₂.modifyInode_inode_self, hinode, v₁.modifyInode_inode_self, hslot]
    rfl

end Xv6.FileSystem
