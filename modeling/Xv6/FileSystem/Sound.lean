import Xv6.FileSystem.Truncate

/-!
# Sound volumes

A volume is sound when, between two calls, the inodes on disk form a table whose
references agree with the free map, no file has a hole below its size, and the
inode cache is a cache: no inode has two entries in use, and a valid entry holds
what the disk holds.

Each routine keeps a volume sound when it returns. When it panics the volume is
`Intact`: the references agree with the free map if the inodes in use are read
from the cache, where the interrupted routine has changed them first.
-/

namespace Xv6.FileSystem

open Function

variable {sb : Superblock} {T T' : Table} {v v' : Volume} {ip : Slot}

/-- Inode `i` has a block for every block index below its size. -/
def NoHole (sb : Superblock) (T : Table) (block : ℕ → Block) (i : ℕ) : Prop :=
  ∀ bn, bn * bSize < (T i).size.toNat → blockTarget sb T block i bn ≠ none

/-- Devices have no contents on the disk. -/
def Dinode.hasContents (x : Dinode) : Prop := x.type ≠ 0 ∧ x.type ≠ tDev

structure Sound (sb : Superblock) (T : Table) (v : Volume) : Prop where
  ledger : Ledger sb T ∅ v.block
  disk : ∀ i < sb.ninodes, v.dinode sb i = T i
  noHole : ∀ i < sb.ninodes, (T i).hasContents → NoHole sb T v.block i
  unique : ∀ p q, 0 < (v.inode p).ref → 0 < (v.inode q).ref →
    (v.inode p).inum = (v.inode q).inum → p = q
  cached : ∀ p, 0 < (v.inode p).ref → (v.inode p).valid = true → Opened sb T p v
  locked : ∀ p, (v.inode p).locked = true → 0 < (v.inode p).ref ∧ (v.inode p).valid = true

/-- An inode as the kernel sees it: the cached copy if there is a valid one. -/
def Volume.inodeOf (sb : Superblock) (v : Volume) (i : ℕ) : Dinode :=
  match (List.finRange nInode).find? fun p =>
      decide (0 < (v.inode p).ref ∧ (v.inode p).valid = true ∧ (v.inode p).inum = i) with
  | some p => (v.inode p).toDinode
  | none => v.dinode sb i

/-- The free map agrees with the references of the inodes as the kernel sees them. -/
def Intact (sb : Superblock) (v : Volume) : Prop := Ledger sb (v.inodeOf sb) ∅ v.block

theorem inodeOf_eq {i : ℕ} {x : Dinode}
    (hcached : ∀ p, 0 < (v.inode p).ref → (v.inode p).valid = true → (v.inode p).inum = i →
      (v.inode p).toDinode = x)
    (hdisk : (∃ p, 0 < (v.inode p).ref ∧ (v.inode p).valid = true ∧ (v.inode p).inum = i) ∨
      v.dinode sb i = x) : v.inodeOf sb i = x := by
  unfold Volume.inodeOf
  split
  · next p hp =>
      have hfound := List.find?_some hp
      simp only [decide_eq_true_eq] at hfound
      obtain ⟨href, hvalid, hinum⟩ := hfound
      exact hcached p href hvalid hinum
  · next hnone =>
      refine hdisk.resolve_left ?_
      rintro ⟨p, hp⟩
      exact List.find?_eq_none.1 hnone p (List.mem_finRange p) (decide_eq_true hp)

theorem Intact.of_table (hledger : Ledger sb T ∅ v.block)
    (hinode : ∀ i < sb.ninodes, v.inodeOf sb i = T i) : Intact sb v := by
  refine hledger.retable fun i k => ?_
  unfold addrTarget
  split_ifs with hi
  · rw [hinode i hi]
  · rfl

theorem Sound.inodeOf (h : Sound sb T v) {i : ℕ} (hi : i < sb.ninodes) : v.inodeOf sb i = T i := by
  refine inodeOf_eq (fun p href hvalid hinum => ?_) (.inr (h.disk i hi))
  rw [(h.cached p href hvalid).copy, hinum]

theorem Sound.intact (h : Sound sb T v) : Intact sb v :=
  Intact.of_table h.ledger fun _ hi => h.inodeOf hi

theorem Sound.intact_of_grown (h : Sound sb T v) (href : 0 < (v.inode ip).ref)
    (hvalid : (v.inode ip).valid = true) (hgrown : Grown sb ip v T v' T') : Intact sb v' := by
  have hslot := hgrown.slot_self
  have hopened := hgrown.opened (h.cached ip href hvalid)
  refine Intact.of_table hgrown.ledger fun i hi => inodeOf_eq (fun p hp hpvalid hinum => ?_) ?_
  · by_cases hpip : p = ip
    · rw [← hinum, hpip, hopened.copy]
    · rw [hgrown.slot_other p hpip] at hp hpvalid hinum ⊢
      have hne : i ≠ (v.inode ip).inum := fun hii =>
        hpip (h.unique p ip hp href (hinum.trans hii))
      rw [(h.cached p hp hpvalid).copy, hinum, hgrown.table_other i hne]
  · by_cases hii : i = (v.inode ip).inum
    · refine .inl ⟨ip, ?_⟩
      rw [hslot]
      exact ⟨href, hvalid, hii.symm⟩
    · right
      rw [hgrown.dinode i hi, h.disk i hi, hgrown.table_other i hii]

theorem blockTarget_congr {sb : Superblock} {T T' : Table} {block block' : ℕ → Block} {i : ℕ}
    (hT : ∀ k, addrTarget sb T' i k = addrTarget sb T i k)
    (hblock : ∀ b, addrTarget sb T i indirectSlot = some b → block' b = block b) (bn : ℕ) :
    blockTarget sb T' block' i bn = blockTarget sb T block i bn := by
  unfold blockTarget
  split_ifs with hdirect hindirect
  · exact hT _
  · simp only [target, hT]
    cases hb : addrTarget sb T i indirectSlot with
    | none => rfl
    | some b => simp only [Option.bind_some, hblock b hb]
  · rfl

namespace Sound

variable (h : Sound sb T v)
include h

theorem opened (hlocked : (v.inode ip).locked = true) : Opened sb T ip v :=
  h.cached ip (h.locked ip hlocked).1 (h.locked ip hlocked).2

/-- Another inode's block map is not touched by a change of inode `i` and of the
free map. -/
theorem keeps_noHole {i j : ℕ} (hj : j < sb.ninodes) (hji : j ≠ i) (hT : ∀ j, j ≠ i → T' j = T j)
    (hdata : ∀ c ∈ sb.data, v'.block c = v.block c) (hcontents : (T' j).hasContents) :
    NoHole sb T' v'.block j := by
  intro bn hbn
  rw [hT j hji] at hbn hcontents
  have haddr : ∀ k, addrTarget sb T' j k = addrTarget sb T j k := fun k => by
    simp only [addrTarget, hT j hji]
  rw [blockTarget_congr haddr fun b hb =>
    hdata b (h.ledger.mem_data (p := .addr j indirectSlot) hb)]
  exact h.noHole j hj hcontents bn hbn

theorem modifySlot {f : Inode → Inode}
    (hunique : ∀ q, q ≠ ip → 0 < (f (v.inode ip)).ref → 0 < (v.inode q).ref →
      (f (v.inode ip)).inum ≠ (v.inode q).inum)
    (hcached : 0 < (f (v.inode ip)).ref → (f (v.inode ip)).valid = true →
      Opened sb T ip (v.modifyInode ip f)) (hlocked : (f (v.inode ip)).locked = true →
      0 < (f (v.inode ip)).ref ∧ (f (v.inode ip)).valid = true) :
    Sound sb T (v.modifyInode ip f) where
  ledger := h.ledger
  disk := h.disk
  noHole := h.noHole
  unique p q hp hq hpq := by
    by_cases hpip : p = ip <;> by_cases hqip : q = ip
    · rw [hpip, hqip]
    · subst hpip
      rw [v.modifyInode_inode_self] at hp hpq
      rw [v.modifyInode_inode_of_ne f hqip] at hq hpq
      exact absurd hpq (hunique q hqip hp hq)
    · subst hqip
      rw [v.modifyInode_inode_self] at hq hpq
      rw [v.modifyInode_inode_of_ne f hpip] at hp hpq
      exact absurd hpq.symm (hunique p hpip hq hp)
    · rw [v.modifyInode_inode_of_ne f hpip] at hp hpq
      rw [v.modifyInode_inode_of_ne f hqip] at hq hpq
      exact h.unique p q hp hq hpq
  cached p hp hvalid := by
    by_cases hpip : p = ip
    · subst hpip
      rw [v.modifyInode_inode_self] at hp hvalid
      exact hcached hp hvalid
    · have hsame := v.modifyInode_inode_of_ne f hpip
      rw [hsame] at hp hvalid
      obtain ⟨hlt, hcopy, htype⟩ := h.cached p hp hvalid
      exact ⟨by rwa [hsame], by rwa [hsame], by rwa [hsame]⟩
  locked p hp := by
    by_cases hpip : p = ip
    · subst hpip
      rw [v.modifyInode_inode_self] at hp ⊢
      exact hlocked hp
    · rw [v.modifyInode_inode_of_ne f hpip] at hp ⊢
      exact h.locked p hp

theorem rewrite (href : 0 < (v.inode ip).ref) (hinum : (v'.inode ip).inum = (v.inode ip).inum)
    (hledger : Ledger sb T' ∅ v'.block) (hT : ∀ j, j ≠ (v.inode ip).inum → T' j = T j)
    (hdisk : ∀ j < sb.ninodes, v'.dinode sb j = T' j)
    (hother : ∀ q, q ≠ ip → v'.inode q = v.inode q)
    (hcached : 0 < (v'.inode ip).ref → (v'.inode ip).valid = true → Opened sb T' ip v')
    (hlocked : (v'.inode ip).locked = true → 0 < (v'.inode ip).ref ∧ (v'.inode ip).valid = true)
    (hnoHole : ∀ j < sb.ninodes, (T' j).hasContents → NoHole sb T' v'.block j) :
    Sound sb T' v' where
  ledger := hledger
  disk := hdisk
  noHole := hnoHole
  unique p q hp hq hpq := by
    -- slot `ip` had its number to itself before
    have hself : ∀ r, r ≠ ip → 0 < (v'.inode r).ref →
        (v'.inode r).inum ≠ (v'.inode ip).inum := fun r hr href' heq => by
      rw [hother r hr] at href' heq
      exact hr (h.unique r ip href' href (heq.trans hinum))
    by_cases hpip : p = ip <;> by_cases hqip : q = ip
    · rw [hpip, hqip]
    · subst hpip
      exact absurd hpq.symm (hself q hqip hq)
    · subst hqip
      exact absurd hpq (hself p hpip hp)
    · rw [hother p hpip] at hp hpq
      rw [hother q hqip] at hq hpq
      exact h.unique p q hp hq hpq
  cached p hp hvalid := by
    by_cases hpip : p = ip
    · subst hpip
      exact hcached hp hvalid
    · have hsame := hother p hpip
      rw [hsame] at hp hvalid
      obtain ⟨hlt, hcopy, htype⟩ := h.cached p hp hvalid
      have hne : (v.inode p).inum ≠ (v.inode ip).inum := fun heq =>
        hpip (h.unique p ip hp href heq)
      refine ⟨by rwa [hsame], ?_, ?_⟩
      · rw [hsame, hT _ hne, hcopy]
      · rw [hsame, hT _ hne]
        exact htype
  locked p hp := by
    by_cases hpip : p = ip
    · subst hpip
      exact hlocked hp
    · rw [hother p hpip] at hp ⊢
      exact h.locked p hp

theorem rewritten {x : Dinode} (href : 0 < (v.inode ip).ref) (hrewritten : Rewritten sb ip v T x v')
    (hinum : (v'.inode ip).inum = (v.inode ip).inum)
    (hcached : 0 < (v'.inode ip).ref → (v'.inode ip).valid = true →
      (v.inode ip).inum < sb.ninodes ∧ (v'.inode ip).toDinode = x ∧ x.type ≠ 0)
    (hlocked : (v'.inode ip).locked = true → 0 < (v'.inode ip).ref ∧ (v'.inode ip).valid = true)
    (hnoHole : x.hasContents → NoHole sb (update T (v.inode ip).inum x) v'.block
      (v.inode ip).inum) : Sound sb (update T (v.inode ip).inum x) v' := by
  have hself : update T (v.inode ip).inum x (v.inode ip).inum = x :=
    update_self ..
  have hT : ∀ j, j ≠ (v.inode ip).inum → update T (v.inode ip).inum x j = T j :=
    fun j hj => update_of_ne hj ..
  refine h.rewrite href hinum hrewritten.ledger hT ?_ hrewritten.slot_other ?_ hlocked ?_
  · intro j hj
    by_cases hji : j = (v.inode ip).inum
    · rw [hji, hself, hrewritten.dinode_self]
    · rw [hT j hji, hrewritten.dinode_other j hj hji, h.disk j hj]
  · intro hp hvalid
    obtain ⟨hlt, hcopy, htype⟩ := hcached hp hvalid
    refine ⟨by rwa [hinum], ?_, ?_⟩
    · rw [hinum, hself, hcopy]
    · rwa [hinum, hself]
  · intro j hj hcontents
    by_cases hji : j = (v.inode ip).inum
    · rw [hji, hself] at hcontents
      rw [hji]
      exact hnoHole hcontents
    · exact h.keeps_noHole hj hji hT hrewritten.data hcontents

theorem dinode : Sound sb (v.dinode sb) v := by
  have haddr : ∀ i k, addrTarget sb (v.dinode sb) i k = addrTarget sb T i k := fun i k => by
    unfold addrTarget
    split_ifs with hi
    · rw [h.disk i hi]
    · rfl
  constructor
  · exact h.ledger.retable haddr
  · exact fun _ _ => rfl
  · intro i hi hcontents bn hbn
    rw [h.disk i hi] at hcontents hbn
    rw [blockTarget_congr (haddr i) fun _ _ => rfl]
    exact h.noHole i hi hcontents bn hbn
  · exact h.unique
  · intro p href hvalid
    obtain ⟨hlt, hcopy, htype⟩ := h.cached p href hvalid
    exact ⟨hlt, by rwa [h.disk _ hlt], by rwa [h.disk _ hlt]⟩
  · exact h.locked

end Sound

end Xv6.FileSystem
