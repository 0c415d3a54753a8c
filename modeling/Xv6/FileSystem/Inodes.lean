import Xv6.FileSystem.Sound

/-!
# The inode cache

`iget`, `ilock`, `ialloc`, `iput` and the other routines that work on whole
inodes keep a volume sound. `iput` frees an inode only under its last reference,
so no other entry of the cache can still hold it.
-/

namespace Xv6.FileSystem

open Routine Function Nat

variable {sb : Superblock} {T : Table} {v : Volume} {ip : Slot}

def Stopped (sb : Superblock) (e : Panic) (v : Volume) : Prop :=
  e ≠ .freeingFreeBlock ∧ Intact sb v

theorem find_cached {inum : ℕ} (h : (List.finRange nInode).find? (fun p =>
    decide (0 < (v.inode p).ref ∧ (v.inode p).inum = inum)) = some ip) :
    0 < (v.inode ip).ref ∧ (v.inode ip).inum = inum := by
  have hfound := List.find?_some h
  simpa only [decide_eq_true_eq] using hfound

theorem Sound.addRef (h : Sound sb T v) (href : 0 < (v.inode ip).ref) :
    Sound sb T (v.modifyInode ip fun x => { x with ref := x.ref + 1 }) := by
  refine h.modifySlot (fun q hq _ href' heq => hq ?_) (fun _ hvalid => ?_) fun hlocked => ?_
  · exact (h.unique ip q href href' heq).symm
  · obtain ⟨hlt, hcopy, htype⟩ := h.cached ip href hvalid
    constructor <;> rwa [v.modifyInode_inode_self]
  · exact ⟨succ_pos _, (h.locked ip hlocked).2⟩

theorem iget_spec (h : Sound sb T v) (inum : ℕ) :
    wp (iget inum) (fun ip v' => Sound sb T v' ∧ 0 < (v'.inode ip).ref ∧ (v'.inode ip).inum = inum ∧
        ∀ q, 0 < (v.inode q).ref → (v'.inode q).locked = (v.inode q).locked ∧ 0 < (v'.inode q).ref)
      (fun e v' => e = .icacheFull ∧ v' = v) v := by
  simp only [iget, wp_bind, wp_look, id_eq]
  cases hfind : (List.finRange nInode).find? (fun p =>
      decide (0 < (v.inode p).ref ∧ (v.inode p).inum = inum)) with
  | some ip =>
    obtain ⟨href, hinum⟩ := find_cached hfind
    refine ⟨h.addRef href, ?_, ?_, fun q hq => ?_⟩
    · rw [v.modifyInode_inode_self]
      exact succ_pos _
    · rw [v.modifyInode_inode_self]
      exact hinum
    · by_cases hqip : q = ip
      · subst hqip
        rw [v.modifyInode_inode_self]
        exact ⟨rfl, succ_pos _⟩
      · rw [v.modifyInode_inode_of_ne _ hqip]
        exact ⟨rfl, hq⟩
  | none =>
    have hnot : ∀ q, 0 < (v.inode q).ref → (v.inode q).inum ≠ inum := fun q hq heq =>
      List.find?_eq_none.1 hfind q (List.mem_finRange q) (decide_eq_true ⟨hq, heq⟩)
    cases hempty : (List.finRange nInode).find? (fun p => decide ((v.inode p).ref = 0)) with
    | none => exact ⟨rfl, rfl⟩
    | some ip =>
      have hzero := List.find?_some hempty
      simp only [decide_eq_true_eq] at hzero
      have hunlocked : (v.inode ip).locked ≠ true := fun hlocked =>
        ne_of_gt (h.locked ip hlocked).1 hzero
      refine ⟨h.modifySlot (fun q _ _ href heq => hnot q href heq.symm) (fun _ hvalid => ?_)
        fun hlocked => absurd hlocked hunlocked, ?_, ?_, fun q hq => ?_⟩
      · cases hvalid
      · rw [v.modifyInode_inode_self]
        exact succ_pos _
      · rw [v.modifyInode_inode_self]
      · have hqip : q ≠ ip := by
          rintro rfl
          exact ne_of_gt hq hzero
        rw [v.modifyInode_inode_of_ne _ hqip]
        exact ⟨rfl, hq⟩

theorem modifyInode_modifyInode (v : Volume) (ip : Slot) (f g : Inode → Inode) :
    (v.modifyInode ip f).modifyInode ip g = v.modifyInode ip fun x => g (f x) := by
  simp only [Volume.modifyInode, update_self, update_idem]

variable (h : Sound sb T v)
include h

theorem Sound.intact_load (hlt : (v.inode ip).inum < sb.ninodes) :
    Intact sb (v.modifyInode ip fun x =>
      { x with toDinode := T (v.inode ip).inum, locked := true, valid := true }) := by
  refine Intact.of_table h.ledger fun i hi => inodeOf_eq (fun p href hvalid hinum => ?_)
    (.inr (h.disk i hi))
  by_cases hpip : p = ip
  · subst hpip
    rw [v.modifyInode_inode_self] at hinum ⊢
    exact congrArg T hinum
  · rw [v.modifyInode_inode_of_ne _ hpip] at href hvalid hinum ⊢
    rw [(h.cached p href hvalid).copy, hinum]

theorem ilock_spec (hlt : (v.inode ip).inum < sb.ninodes) :
    wp (ilock sb ip) (fun _ v' => Sound sb T v') (Stopped sb) v := by
  have hstop : ∀ e : Panic, e ≠ .freeingFreeBlock → Stopped sb e v := fun e he => ⟨he, h.intact⟩
  have hothers : 0 < (v.inode ip).ref → ∀ q, q ≠ ip → 0 < (v.inode q).ref →
      (v.inode ip).inum ≠ (v.inode q).inum := fun href q hq hq' heq =>
    hq (h.unique ip q href hq' heq).symm
  simp only [ilock, acquiresleep, wp_bind, wp_look, wp_ite, wp_stop, wp_update]
  refine ⟨fun _ => hstop _ (by decide), fun href => ⟨fun _ => hstop _ (by decide), fun _ =>
    ⟨?_, ?_⟩⟩⟩
  · intro hvalid
    have href' : 0 < (v.inode ip).ref := not_lt.1 href
    obtain ⟨_, hcopy, htype⟩ := h.cached ip href' hvalid
    refine h.modifySlot (fun q hq _ => hothers href' q hq) ?_ fun _ => ⟨href', hvalid⟩
    intro _ _
    constructor <;> rwa [v.modifyInode_inode_self]
  · intro hvalid
    have href' : 0 < (v.inode ip).ref := not_lt.1 href
    have hdisk := h.disk _ hlt
    rw [Volume.dinode] at hdisk
    simp only [iload, wp_bind, wp_look, wp_update, wp_ite, wp_stop, wp_pure,
      modifyInode_modifyInode, Volume.modifyInode_inode_self, Volume.modifyInode_block, hdisk]
    refine ⟨fun _ => ⟨by decide, h.intact_load hlt⟩, fun htype => ?_⟩
    refine h.modifySlot (fun q hq _ => hothers href' q hq) (fun _ _ => ?_) fun _ => ⟨href', rfl⟩
    constructor <;> rw [v.modifyInode_inode_self]
    · exact hlt
    · exact htype

theorem iunlock_spec : wp (iunlock ip) (fun _ v' => Sound sb T v') (Stopped sb) v := by
  simp only [iunlock, releasesleep, wp_bind, wp_look, wp_ite, wp_stop, wp_update]
  refine ⟨fun _ => ⟨by decide, h.intact⟩, fun hheld => ?_⟩
  obtain ⟨-, href⟩ := not_or.1 hheld
  have href' : 0 < (v.inode ip).ref := not_lt.1 href
  refine h.modifySlot (fun q hq _ hq' heq => hq (h.unique ip q href' hq' heq).symm)
    (fun _ hvalid => ?_) (by simp)
  obtain ⟨hlt, hcopy, htype⟩ := h.cached ip href' hvalid
  constructor <;> rwa [v.modifyInode_inode_self]

theorem iput_spec (href : 0 < (v.inode ip).ref) :
    wp (iput sb ip) (fun _ v' => (∃ T', Sound sb T' v') ∧
        (∀ j < sb.ninodes, j ≠ (v.inode ip).inum → v'.dinode sb j = v.dinode sb j) ∧
        ∀ c ∈ sb.data, v'.block c = v.block c)
      (fun e v' => e = .sleeping ∧ v' = v ∧ (v.inode ip).locked = true) v := by
  simp only [iput, acquiresleep, releasesleep, dropRef, wp_bind, wp_look, wp_ite, wp_stop,
    wp_update, Volume.modifyInode_inode_self]
  refine ⟨fun hlocked => ⟨trivial, trivial, hlocked⟩, fun hunlocked => ⟨?_, ?_⟩⟩
  · rintro ⟨hvalid, -, hone⟩
    obtain ⟨hlt, hcopy, htype⟩ := h.cached ip href hvalid
    have hopened : Opened sb T ip (v.modifyInode ip fun x => { x with locked := true }) := by
      constructor <;> rwa [v.modifyInode_inode_self]
    refine wp_mono_ok (ifree_spec hopened h.ledger) ?_
    rintro - v₁ ⟨hfreed, hslot⟩
    rw [v.modifyInode_inode_self] at hfreed hslot
    have hrewritten := hfreed.of_modifyInode rfl
    rw [modifyInode_modifyInode]
    refine ⟨⟨_, h.rewritten href (hrewritten.modifyInode _) ?_ (fun hpos => ?_) ?_ ?_⟩,
      hrewritten.dinode_other, hrewritten.data⟩
    · rw [v₁.modifyInode_inode_self, hslot]
    · -- that was the last reference
      rw [v₁.modifyInode_inode_self, hslot] at hpos
      simp only [hone] at hpos
      exact absurd hpos (lt_irrefl 0)
    · simp
    · exact fun hcontents => absurd rfl hcontents.1
  · intro _
    rw [modifyInode_modifyInode, modifyInode_modifyInode]
    refine ⟨⟨T, h.modifySlot (fun q hq _ hq' heq => hq (h.unique ip q href hq' heq).symm)
      (fun _ hvalid => ?_) (by simp)⟩, fun _ _ _ => rfl, fun _ _ => rfl⟩
    obtain ⟨hlt, hcopy, htype⟩ := h.cached ip href hvalid
    constructor <;> rwa [v.modifyInode_inode_self]

theorem sound_itrunc (hlocked : (v.inode ip).locked = true) :
    wp (itrunc sb ip) (fun _ v' => ∃ T', Sound sb T' v') (Stopped sb) v := by
  obtain ⟨href, hvalid⟩ := h.locked ip hlocked
  have hopened := h.opened hlocked
  refine wp_mono_ok (itrunc_spec hopened h.ledger) ?_
  rintro - v₁ ⟨htrunc, hslot⟩
  refine ⟨_, h.rewritten href htrunc ?_ (fun _ _ => ?_) (fun _ => ?_) ?_⟩
  · rw [hslot]
  · rw [hslot]
    exact ⟨hopened.inum_lt, rfl, hopened.type_ne⟩
  · rw [hslot]
    exact ⟨href, hvalid⟩
  · intro _ bn hbn
    rw [update_self] at hbn
    exact absurd hbn (not_lt_zero _)

theorem setLinks_spec (hlocked : (v.inode ip).locked = true) (major minor nlink : BitVec 16) :
    wp (setLinks sb ip major minor nlink) (fun _ v' => ∃ T', Sound sb T' v') (Stopped sb) v := by
  obtain ⟨href, hvalid⟩ := h.locked ip hlocked
  have hopened := h.opened hlocked
  generalize hx : ({ T (v.inode ip).inum with
    major := major, minor := minor, nlink := nlink } : Dinode) = x
  -- the addresses and the type stay, so the same blocks are referred to
  have haddr : ∀ j k, addrTarget sb (update T (v.inode ip).inum x) j k = addrTarget sb T j k :=
    addrTarget_update_of_addrs hopened.inum_lt (by rw [← hx]) (by rw [← hx])
  simp only [setLinks, wp_bind, wp_update]
  refine wp_mono_ok (iupdate_spec v (x := x) (T := T) ?_ hopened.inum_lt ?_
    (h.ledger.retable haddr) (fun q hq => v.modifyInode_inode_of_ne _ hq) (fun _ _ _ => rfl)
    fun _ _ => rfl) ?_
  · rw [v.modifyInode_inode_self]
  · rw [v.modifyInode_inode_self, ← hx, ← hopened.copy]
  · rintro - v₁ ⟨hrewritten, hinode⟩
    refine ⟨_, h.rewritten href hrewritten ?_ (fun _ _ => ⟨hopened.inum_lt, ?_, ?_⟩)
      (fun _ => ?_) fun hcontents bn hbn => ?_⟩
    · rw [hinode, v.modifyInode_inode_self]
    · rw [hinode, v.modifyInode_inode_self, ← hx, ← hopened.copy]
    · rw [← hx]
      exact hopened.type_ne
    · rw [hinode, v.modifyInode_inode_self]
      exact ⟨href, hvalid⟩
    · have hsame := hrewritten.data
      rw [update_self, ← hx] at hbn
      rw [← hx] at hcontents
      rw [blockTarget_congr (fun k => haddr _ k) fun b hb =>
        hsame b (h.ledger.mem_data (p := .addr _ indirectSlot) hb)]
      exact h.noHole _ hopened.inum_lt hcontents bn hbn

/-- `ialloc` takes an inode that is free on the disk, so no valid entry of the
cache holds it. -/
theorem Sound.newDinode {i : ℕ} (hi : i < sb.ninodes) (hfree : (v.dinode sb i).type = 0)
    (type : BitVec 16) :
    Sound sb (update T i (Dinode.fresh type))
      (v.modifyBlock (sb.iblock i) fun d => newDinode d (i % ipb) type) := by
  rw [h.disk i hi] at hfree
  have hT : ∀ j, j ≠ i → update T i (Dinode.fresh type) j = T j :=
    fun j hj => update_of_ne hj ..
  have hdata : ∀ c ∈ sb.data, (v.modifyBlock (sb.iblock i)
      fun d => FileSystem.newDinode d (i % ipb) type).block c = v.block c := fun c hc =>
    v.modifyBlock_block_of_ne _ (Superblock.iblock_ne_of_mem_data hi hc).symm
  constructor
  · refine (h.ledger.retable fun j k => ?_).writeInodes hi
    by_cases hj : j = i
    · rw [hj, addrTarget_update_self _ hi, Dinode.pointer_of_addrs rfl, addrTarget, if_pos hi,
        Dinode.pointer, if_pos hfree]
    · rw [addrTarget_update_of_ne _ hj]
  · intro j hj
    by_cases hji : j = i
    · rw [hji, update_self, Volume.dinode, v.modifyBlock_block_self,
        dinodeAt_newDinode _ _ (mod_lt i (by decide))]
    · rw [hT j hji, dinode_modifyBlock_of_ne v hji
        (f := fun d => FileSystem.newDinode d (i % ipb) type)
        (fun k hk => dinodeAt_newDinode_of_ne _ type hk), h.disk j hj]
  · intro j hj hcontents
    by_cases hji : j = i
    · intro bn hbn
      rw [hji, update_self] at hbn
      exact absurd hbn (not_lt_zero _)
    · exact h.keeps_noHole hj hji hT hdata hcontents
  · exact h.unique
  · intro p href hvalid
    obtain ⟨hlt, hcopy, htype⟩ := h.cached p href hvalid
    have hne : (v.inode p).inum ≠ i := by
      rintro rfl
      exact htype hfree
    exact ⟨hlt, by rwa [Volume.modifyBlock_inode, hT _ hne],
      by rwa [Volume.modifyBlock_inode, hT _ hne]⟩
  · exact h.locked

theorem iallocFrom_spec (type : BitVec 16) (n : ℕ) :
    ∀ inum, inum + n ≤ sb.ninodes →
      wp (iallocFrom sb type inum n) (fun _ v' => ∃ T', Sound sb T' v') (Stopped sb) v := by
  induction n with
  | zero =>
    intro inum _
    exact ⟨by decide, h.intact⟩
  | succ n ih =>
    intro inum hinum
    have hlt : inum < sb.ninodes := by omega
    simp only [iallocFrom, wp_bind, wp_look, wp_ite, wp_update]
    refine ⟨fun hfree => ?_, fun _ => ih (inum + 1) (by omega)⟩
    have hnew := h.newDinode hlt hfree type
    refine wp_mono (iget_spec hnew inum) (fun _ v' h' => ⟨_, h'.1⟩) ?_
    rintro e v' ⟨rfl, rfl⟩
    exact ⟨by decide, hnew.intact⟩

theorem ialloc_spec (type : BitVec 16) :
    wp (ialloc sb type) (fun _ v' => ∃ T', Sound sb T' v') (Stopped sb) v := by
  by_cases hzero : sb.ninodes = 0
  · rw [ialloc, hzero]
    exact ⟨by decide, h.intact⟩
  · exact iallocFrom_spec h type _ 1 (by omega)

end Xv6.FileSystem
