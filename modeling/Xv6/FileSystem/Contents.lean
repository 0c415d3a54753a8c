import Mathlib.Data.Finset.Union
import Xv6.FileSystem.Reads

/-!
# Reading and writing inodes

`writei` starts at or below the end of the file, so the
blocks it allocates continue those that are there. It copies the inode to disk
when the file has grown, and when the file has not grown it has allocated
nothing.
-/

namespace Xv6.FileSystem

open Routine Function

variable {sb : Superblock} {T T' : Table} {v v' : Volume} {ip : Slot}

variable (h : Sound sb T v) (hlocked : (v.inode ip).locked = true)

include h hlocked in
theorem Sound.readiWith {alloc : VolumeM ℕ} {devsw : Devices} (off n : BitVec 32) :
    readiWith alloc devsw ip off n v = (.ok (if (v.inode ip).type = tDev then
      deviceRead devsw (v.inode ip).major n.toNat else readResult (readBytes
        (contents sb T v.block (v.inode ip).inum) off.toNat n.toNat)), v) := by
  have ho := h.opened hlocked
  refine readiWith_there ho (fun hdev => h.noHole _ ho.inum_lt ⟨ho.type_ne, ?_⟩) off n
  rwa [← ho.copy]

include h hlocked in
/-- Reading a file without holes changes nothing and does not panic, and it finds the contents of
the file. -/
theorem readi_spec (devsw : Devices) (off n : BitVec 32) :
    wp (readi sb devsw ip off n) (fun r v' => v' = v ∧ ((v.inode ip).type ≠ tDev →
        r = readResult (readBytes (contents sb T v.block (v.inode ip).inum) off.toNat n.toNat)))
      (fun _ _ => False) v := by
  rw [wp, ← readiWith_balloc, h.readiWith hlocked]
  exact ⟨rfl, fun hdev => if_neg hdev⟩

/-- The blocks that `writei` touches when it writes from `off` up to `stop` are
there. -/
def Touched (sb : Superblock) (T : Table) (block : ℕ → Block) (i off stop : ℕ) : Prop :=
  ∀ bn, off < stop → off / bSize ≤ bn → bn * bSize < stop → blockTarget sb T block i bn ≠ none

theorem Touched.succ {block : ℕ → Block} {i off stop m : ℕ}
    (hm : m = min (stop - off) (bSize - off % bSize))
    (hfirst : blockTarget sb T block i (off / bSize) ≠ none)
    (hrest : Touched sb T block i (off + m) stop) : Touched sb T block i off stop := by
  intro bn hpos hle hlt
  by_cases hbn : bn = off / bSize
  · rw [hbn]
    exact hfirst
  · -- a later block starts where this round ends, or after it
    have hend : off + m < stop ∧ (off + m) / bSize ≤ bn := by
      simp only [bSize] at hm hle hlt hbn ⊢
      omega
    exact hrest bn hend.1 hend.2 hlt

def spanPlaces (i off stop : ℕ) : Finset Place :=
  ((Finset.range stop).filter fun bn => off / bSize ≤ bn ∧ bn * bSize < stop).biUnion
    (blockPlaces i)

def Covers (P : Finset Place) (i off stop : ℕ) : Prop :=
  ∀ bn, off / bSize ≤ bn → bn * bSize < stop → blockPlaces i bn ⊆ P

theorem covers_spanPlaces (i off stop : ℕ) : Covers (spanPlaces i off stop) i off stop := by
  intro bn hle hlt
  refine Finset.subset_biUnion_of_mem (blockPlaces i) (Finset.mem_filter.2 ⟨?_, hle, hlt⟩)
  exact Finset.mem_range.2 (Nat.lt_of_le_of_lt (Nat.le_mul_of_pos_right bn (by decide)) hlt)

def span (off stop : ℕ) : Set ℕ := {bn | off / bSize ≤ bn ∧ bn * bSize < stop}

theorem span_mono (off m stop : ℕ) : span (off + m) stop ⊆ span off stop := fun _ hbn =>
  ⟨Nat.le_trans (Nat.div_le_div_right (Nat.le_add_right off m)) hbn.1, hbn.2⟩

/-- The loop of `writei`, by induction on its rounds. It gives the file every block it writes to,
and if all of them were there, the inode stays as it was. It stops only for want of blocks. -/
theorem writeLoop_spec (src data : ℕ → BitVec 8) (n rounds : ℕ) :
    ∀ tot off j T, Opened sb T ip j.vol → Ledger sb T ∅ j.vol.block → tot ≤ n → n - tot ≤ rounds →
      (∀ i, data (off + i) = src (tot + i)) →
      wp (Journal.writeLoop sb ip src n rounds tot off)
        (fun stop j' => stop = off + (n - tot) ∧ ∃ T', Wrote sb ip off stop data j.vol T j'.vol T' ∧
          Logs sb (j.vol.inode ip).inum (span off stop) j T j' T' ∧
          Touched sb T' j'.vol.block (j.vol.inode ip).inum off stop ∧
          (Touched sb T j.vol.block (j.vol.inode ip).inum off stop → T' = T))
        (fun e j' => e ≠ .freeingFreeBlock ∧ (∃ T', Grown sb ip j.vol T j'.vol T' ∧
            Logs sb (j.vol.inode ip).inum (span off (off + (n - tot))) j T j' T') ∧
          (off + (n - tot) ≤ maxFile * bSize → e = .outOfBlocks ∧
            ∀ P, Covers P (j.vol.inode ip).inum off (off + (n - tot)) →
              freeBlocks sb j.vol.block < missing sb T j.vol.block P)) j := by
  have hdone : ∀ off j T, Opened sb T ip j.vol → Ledger sb T ∅ j.vol.block →
      off = off + 0 ∧ ∃ T', Wrote sb ip off off data j.vol T j.vol T' ∧
        Logs sb (j.vol.inode ip).inum (span off off) j T j T' ∧
        Touched sb T' j.vol.block (j.vol.inode ip).inum off off ∧
        (Touched sb T j.vol.block (j.vol.inode ip).inum off off → T' = T) :=
    fun off j T ho hledger => ⟨rfl, T,
      Wrote.of_kept (Grown.refl ho hledger) (fun _ _ _ _ => rfl) off, Logs.refl,
      fun bn hpos => absurd hpos (Nat.lt_irrefl off), fun _ => rfl⟩
  induction rounds with
  | zero =>
    intro tot off j T ho hledger htot hrounds _
    rw [Nat.le_zero.1 hrounds]
    exact hdone off j T ho hledger
  | succ rounds ih =>
    intro tot off j T ho hledger htot hrounds hdata
    rw [Journal.writeLoop, wp_ite]
    refine ⟨fun hlt => ?_, fun hge => ?_⟩
    · have hmod := Nat.mod_lt off (show 0 < bSize by decide)
      have hstart : off / bSize * bSize < off + (n - tot) :=
        Nat.lt_of_le_of_lt (Nat.div_mul_le_self off bSize) (by omega)
      have hfirst : {off / bSize} ⊆ span off (off + (n - tot)) :=
        Set.singleton_subset_iff.2 ⟨Nat.le_refl _, hstart⟩
      rw [wp_bind]
      refine wp_mono (bmap_spec ho hledger (off / bSize)) ?_ ?_
      · rintro b j₁ ⟨T₁, hmapped, hlog⟩
        have hgrown := hmapped.grown
        have ho₁ := hgrown.opened ho
        generalize hm : min (n - tot) (bSize - off % bSize) = m
        have hb := hmapped.there
        rw [← hgrown.inum] at hb
        have hfit : off % bSize + m ≤ bSize := by omega
        have hstored : Wrote sb ip off (off + m) data _ _ _ _ := Wrote.store ho₁ hgrown.ledger hb
          hfit (fun i => src (tot + i)) fun i _ => hdata i
        have hwrote := (Wrote.of_kept hgrown hmapped.kept off).trans (Nat.le_refl off)
          (Nat.le_add_right off m) hstored
        have hinum := hwrote.grown.inum
        have hlog₂ := hlog.trans hgrown (Logs.write hmapped.there _
          (hstored.grown.keeps_blockTarget hmapped.there)) hstored.grown
        refine wp_mono (ih (tot + m) (off + m) _ _ (hstored.grown.opened ho₁)
          hstored.grown.ledger (by omega) (by omega) ?_) ?_ ?_
        · intro i
          rw [Nat.add_assoc, hdata, Nat.add_assoc]
        · rintro stop j₃ ⟨hstop, T₃, hwrote₃, hlog₃, htouched, hkept⟩
          obtain rfl : stop = off + (n - tot) := by omega
          rw [hinum] at htouched hkept hlog₃
          refine ⟨rfl, T₃, hwrote.trans (Nat.le_add_right off m) (by omega) hwrote₃,
            (hlog₂.mono hfirst).trans hwrote.grown (hlog₃.mono (span_mono off m _)) hwrote₃.grown,
            ?_, fun hthere => ?_⟩
          · refine Touched.succ (m := m) (by omega) ?_ htouched
            refine (hstored.grown.trans hwrote₃.grown).keeps_block ?_
            rw [hmapped.there]
            exact Option.some_ne_none b
          · -- everything was there: nothing has been allocated so far
            have hpos : off < off + (n - tot) := by omega
            obtain ⟨-, rfl⟩ := hmapped.same (hthere (off / bSize) hpos (Nat.le_refl _) hstart)
            refine hkept fun bn _ hle hlt => hwrote.grown.keeps_block (hthere bn hpos ?_ hlt)
            exact Nat.le_trans (Nat.div_le_div_right (Nat.le_add_right off m)) hle
        · rintro e j₃ ⟨he, ⟨T₃, hgrown₃, hlog₃⟩, hshort⟩
          rw [show off + m + (n - (tot + m)) = off + (n - tot) by omega, hinum] at hshort hlog₃
          refine ⟨he, ⟨T₃, hwrote.grown.trans hgrown₃, (hlog₂.mono hfirst).trans hwrote.grown
            (hlog₃.mono (span_mono off m _)) hgrown₃⟩, fun hmax => ?_⟩
          refine ⟨(hshort hmax).1, fun P hP => ?_⟩
          have hrest := (hshort hmax).2 P fun bn hle hlt => hP bn
            (Nat.le_trans (Nat.div_le_div_right (Nat.le_add_right off m)) hle) hlt
          have hpaid := (hmapped.paid P (hP _ (Nat.le_refl _) hstart)).trans
            (Paid.write hgrown.ledger hb
              (fun d => ByteBlock.store d (off % bSize) m fun i => src (tot + i)) P)
          rw [Paid] at hpaid
          dsimp only at hrest
          omega
      · rintro e j₁ ⟨T₁, hunmapped, hlog⟩
        refine ⟨hunmapped.panic, ⟨T₁, hunmapped.grown, hlog.mono hfirst⟩, fun hmax => ?_⟩
        have hbn : off / bSize < maxFile := by
          rw [Nat.div_lt_iff_lt_mul (by decide)]
          omega
        obtain ⟨he, hshort⟩ := hunmapped.short hbn
        exact ⟨he, fun P hP => hshort P (hP _ (Nat.le_refl _) hstart)⟩
    · rw [Nat.sub_eq_zero_of_le (Nat.not_lt.1 hge)]
      exact hdone off j T ho hledger

include h hlocked in
theorem Sound.written (hgrown : Grown sb ip v T v' T) : Sound sb T v' := by
  have ho := h.opened hlocked
  obtain ⟨href, hvalid⟩ := h.locked ip hlocked
  have hslot : v'.inode ip = v.inode ip := by
    rw [hgrown.slot_self, ← ho.copy]
  refine h.rewrite href hgrown.inum hgrown.ledger (fun _ _ => rfl) ?_ hgrown.slot_other
    (fun _ _ => hgrown.opened ho) ?_ ?_
  · intro j hj
    rw [hgrown.dinode j hj, h.disk j hj]
  · rw [hslot]
    exact fun _ => ⟨href, hvalid⟩
  · intro j hj hcontents bn hbn
    exact hgrown.keeps_block (h.noHole j hj hcontents bn hbn)

/-- `writei` has stored the bytes from `lo` to `hi`, and the file has size `size` now. -/
structure Saved (sb : Superblock) (ip : Slot) (lo hi : ℕ) (data : ℕ → BitVec 8) (size : BitVec 32)
    (v : Volume) (T : Table) (v' : Volume) (T' : Table) : Prop where
  sound : Sound sb T' v'
  inside : ∀ k, lo ≤ k → k < hi → byteOf sb T' v'.block (v.inode ip).inum k = some (data k)
  outside : ∀ k x, k < lo ∨ hi ≤ k → byteOf sb T v.block (v.inode ip).inum k = some x →
    byteOf sb T' v'.block (v.inode ip).inum k = some x
  other : ∀ j, j ≠ (v.inode ip).inum → contents sb T' v'.block j = contents sb T v.block j
  table_self : T' (v.inode ip).inum =
    { T (v.inode ip).inum with size := size, addrs := (T' (v.inode ip).inum).addrs }
  slot_other : ∀ q, q ≠ ip → v'.inode q = v.inode q
  slot_self : v'.inode ip = { v.inode ip with size := size, addrs := (T' (v.inode ip).inum).addrs }

include h hlocked in
theorem Sound.saved (hwrote : Wrote sb ip lo hi data v T v' T) :
    Saved sb ip lo hi data (T (v.inode ip).inum).size v T v' T where
  sound := h.written hlocked hwrote.grown
  inside := hwrote.inside
  outside k x hout := hwrote.outside _ k x fun _ => hout
  other j hj := hwrote.contents_other hj
  table_self := rfl
  slot_other := hwrote.grown.slot_other
  slot_self := by
    rw [hwrote.grown.slot_self, ← (h.opened hlocked).copy]

include h hlocked in
theorem Sound.extended {v₁ : Volume} {T₁ : Table} {off : ℕ} {size : BitVec 32}
    (hwrote : Wrote sb ip off size.toNat data v T v₁ T₁)
    (hoff : off ≤ (T (v.inode ip).inum).size.toNat)
    (hlt : (T (v.inode ip).inum).size.toNat < size.toNat)
    (htouched : Touched sb T₁ v₁.block (v.inode ip).inum off size.toNat)
    (hcontents : (T (v.inode ip).inum).hasContents) :
    wp (iupdate sb ip) (fun _ v' => ∃ T', Saved sb ip off size.toNat data size v T v' T')
      (fun _ _ => False) (v₁.modifyInode ip fun x => { x with size := size }) := by
  have hgrown := hwrote.grown
  have ho := h.opened hlocked
  obtain ⟨href, hvalid⟩ := h.locked ip hlocked
  have ho₁ := hgrown.opened ho
  have hi := ho₁.inum_lt
  generalize hx : ({ T₁ (v₁.inode ip).inum with size := size } : Dinode) = x
  have haddr : ∀ j k, addrTarget sb (update T₁ (v₁.inode ip).inum x) j k = addrTarget sb T₁ j k :=
    addrTarget_update_of_addrs hi (by rw [← hx]) (by rw [← hx])
  refine wp_mono_ok (iupdate_spec v₁ (x := x) (T := T₁) ?_ hi ?_
    (hgrown.ledger.retable haddr) (fun q hq => v₁.modifyInode_inode_of_ne _ hq) (fun _ _ _ => rfl)
    fun _ _ => rfl) ?_
  · rw [v₁.modifyInode_inode_self]
  · rw [v₁.modifyInode_inode_self, ← hx, ← ho₁.copy]
  · rintro - v₂ ⟨hrewritten, hinode⟩
    have hslot : v₂.inode ip = { v₁.inode ip with size := size } := by
      rw [hinode, v₁.modifyInode_inode_self]
    have hblock : ∀ j bn, blockTarget sb (update T₁ (v₁.inode ip).inum x) v₂.block j bn =
        blockTarget sb T₁ v₁.block j bn := fun j bn =>
      blockTarget_congr (haddr j) (fun b hb =>
        hrewritten.data b (hgrown.ledger.mem_data (p := .addr j indirectSlot) hb)) bn
    have hself : update T₁ (v₁.inode ip).inum x (v₁.inode ip).inum = x :=
      update_self ..
    have hT : ∀ j, j ≠ (v₁.inode ip).inum → update T₁ (v₁.inode ip).inum x j = T j := fun j hj => by
      rw [update_of_ne hj, hgrown.table_other j (hgrown.inum ▸ hj)]
    have hbyte : ∀ j k, byteOf sb (update T₁ (v₁.inode ip).inum x) v₂.block j k =
        byteOf sb T₁ v₁.block j k := by
      intro j k
      rw [byteOf, hblock, byteOf]
      cases hb : blockTarget sb T₁ v₁.block j (k / bSize) with
      | none => rfl
      | some b =>
        obtain ⟨p, hp, -⟩ := exists_of_blockTarget hb
        rw [Option.map_some, Option.map_some, hrewritten.data b (hgrown.ledger.mem_data hp)]
    have hxself : x = { T (v.inode ip).inum with size := size, addrs := x.addrs } := by
      rw [← hx, hgrown.inum, hgrown.table_self]
    refine ⟨_, ⟨h.rewrite href ?_ hrewritten.ledger (hgrown.inum ▸ hT) ?_ ?_ ?_ ?_ ?_, ?_, ?_,
      ?_, ?_, ?_, ?_⟩⟩
    · rw [hslot, hgrown.inum]
    · intro j hj
      by_cases hji : j = (v₁.inode ip).inum
      · rw [hji, hself, hrewritten.dinode_self]
      · rw [hrewritten.dinode_other j hj hji, hgrown.dinode j hj, h.disk j hj, hT j hji]
    · intro q hq
      rw [hrewritten.slot_other q hq, hgrown.slot_other q hq]
    · intro _ _
      constructor <;> rw [hslot]
      · exact hi
      · rw [hself, ← hx, ← ho₁.copy]
      · rw [hself, ← hx]
        exact ho₁.type_ne
    · intro _
      rw [hslot, hgrown.slot_self]
      exact ⟨href, hvalid⟩
    · intro j hj hcontents' bn hbn
      rw [hblock]
      by_cases hji : j = (v₁.inode ip).inum
      · rw [hji, hself, ← hx] at hbn
        rw [hji, hgrown.inum]
        -- a block below the old size was there; the others have been touched
        by_cases hold : bn * bSize < (T (v.inode ip).inum).size.toNat
        · exact hgrown.keeps_block (h.noHole _ ho.inum_lt hcontents bn hold)
        · refine htouched bn (Nat.lt_of_le_of_lt hoff hlt) ?_ hbn
          simp only [bSize] at hold ⊢
          omega
      · rw [hT j hji] at hbn hcontents'
        exact hgrown.keeps_block (h.noHole j hj hcontents' bn hbn)
    · intro k hlo hhi
      rw [hbyte, hwrote.inside k hlo hhi]
    · intro k y hout hy
      rw [hbyte, hwrote.outside _ k y (fun _ => hout) hy]
    · intro j hj
      rw [← hwrote.contents_other hj]
      refine contents_congr ?_ (hbyte j)
      rw [hT j (hgrown.inum ▸ hj), hgrown.table_other j hj]
    · rw [← hgrown.inum, hself, hgrown.inum]
      exact hxself
    · intro q hq
      rw [hrewritten.slot_other q hq, hgrown.slot_other q hq]
    · rw [hslot, ← hgrown.inum, hself, hgrown.slot_self, ← hx, hgrown.inum]

/-- The writes that `writei` refuses in a file of this size. -/
def Refused (size off n : ℕ) : Prop :=
  size < off ∨ 2 ^ 32 ≤ off + n ∨ maxFile * bSize < off + n

instance (size off n : ℕ) : Decidable (Refused size off n) :=
  inferInstanceAs (Decidable (_ ∨ _ ∨ _))

def sizeAfter (size : BitVec 32) (stop : ℕ) : BitVec 32 :=
  if size.toNat < stop then BitVec.ofNat 32 stop else size

def Written (sb : Superblock) (ip : Slot) (src : ℕ → BitVec 8) (off n : ℕ) (v : Volume)
    (T : Table) (r : ℤ) (v' : Volume) (T' : Table) : Prop :=
  if Refused (T (v.inode ip).inum).size.toNat off n then r = -1 ∧ v' = v ∧ T' = T
  else r = n ∧ Saved sb ip off (off + n) (fun k => src (k - off))
    (sizeAfter (T (v.inode ip).inum).size (off + n)) v T v' T'

variable (h : Sound sb T v) (hlocked : (v.inode ip).locked = true) (devsw : Devices)
include h hlocked devsw

theorem writei_spec (src : ℕ → BitVec 8) (off n : BitVec 32) :
    wp (writei sb devsw ip src off n) (fun r v' => ∃ T', Sound sb T' v' ∧
        ((v.inode ip).type ≠ tDev → Written sb ip src off.toNat n.toNat v T r v' T'))
      (fun e v' => Stopped sb e v' ∧ e = .outOfBlocks ∧
        ¬ Refused (T (v.inode ip).inum).size.toNat off.toNat n.toNat ∧ freeBlocks sb v.block <
          missing sb T v.block
            (spanPlaces (v.inode ip).inum off.toNat (off.toNat + n.toNat))) v := by
  have ho := h.opened hlocked
  obtain ⟨href, hvalid⟩ := h.locked ip hlocked
  have hrefused : ∀ r, Refused (T (v.inode ip).inum).size.toNat off.toNat n.toNat → r = -1 →
      ∃ T', Sound sb T' v ∧ ((T (v.inode ip).inum).type ≠ tDev →
        Written sb ip src off.toNat n.toNat v T r v T') := by
    rintro r hrefused rfl
    exact ⟨T, h, fun _ => by rw [Written, if_pos hrefused]; exact ⟨rfl, rfl, rfl⟩⟩
  simp only [writei, wp_bind, wp_look, wp_ite, wp_pure]
  rw [ho.copy]
  refine ⟨fun hdev => ⟨fun _ => ⟨T, h, fun hne => absurd hdev hne⟩, fun _ => ?_⟩, fun hdev =>
    ⟨fun hrange => hrefused _ ?_ rfl, fun hrange => ⟨fun hmax => hrefused _ ?_ rfl, fun hmax =>
      ?_⟩⟩⟩
  · cases devsw.write (T (v.inode ip).inum).major.toNat with
    | none | some => exact ⟨T, h, fun hne => absurd hdev hne⟩
  · rw [BitVec.lt_def, wraps_iff] at hrange
    exact hrange.imp_right .inl
  · have hsum := toNat_add_of_not_lt (not_or.1 hrange).2
    rw [BitVec.lt_def, hsum] at hmax
    exact .inr (.inr hmax)
  · obtain ⟨hoff, hwrap⟩ := not_or.1 hrange
    have hsum := toNat_add_of_not_lt hwrap
    have hoff' := BitVec.le_def.1 (BitVec.not_lt.1 hoff)
    have hfits : off.toNat + n.toNat ≤ maxFile * bSize := by
      rw [BitVec.lt_def, hsum] at hmax
      exact Nat.not_lt.1 hmax
    have hallowed : ¬ Refused (T (v.inode ip).inum).size.toNat off.toNat n.toNat := by
      rw [Refused, ← wraps_iff, not_or, not_or]
      exact ⟨Nat.not_lt.2 hoff', hwrap, Nat.not_lt.2 hfits⟩
    have hcontents : (T (v.inode ip).inum).hasContents := ⟨ho.type_ne, hdev⟩
    refine (@Simulates.wp_iff _ _ _ _ _ _ _ _ _ ⟨v, []⟩
      (Journal.writeLoop_erases src n.toNat n.toNat 0 off.toNat)).2
      (wp_mono (writeLoop_spec src (fun k => src (k - off.toNat)) n.toNat n.toNat 0 off.toNat _
        T ho h.ledger (Nat.zero_le _) (Nat.le_refl _) fun i => ?_) ?_ ?_)
    · rw [Nat.add_sub_cancel_left, Nat.zero_add]
    · rintro stop ⟨v₁, logged⟩ ⟨hstop, T₁, hwrote, -, htouched, hkept⟩
      rw [Nat.sub_zero] at hstop
      subst hstop
      have hwritten : ∀ T' v', Saved sb ip off.toNat (off.toNat + n.toNat)
          (fun k => src (k - off.toNat))
          (sizeAfter (T (v.inode ip).inum).size (off.toNat + n.toNat)) v T v' T' →
          ∃ T', Sound sb T' v' ∧ ((T (v.inode ip).inum).type ≠ tDev →
            Written sb ip src off.toNat n.toNat v T n.toNat v' T') := fun T' v' hsaved =>
        ⟨T', hsaved.sound, fun _ => by rw [Written, if_neg hallowed]; exact ⟨rfl, hsaved⟩⟩
      constructor
      · rintro ⟨hpos, hlt⟩
        have hsize : (BitVec.ofNat 32 (off.toNat + n.toNat)).toNat = off.toNat + n.toNat := by
          rw [BitVec.toNat_ofNat, ← hsum, Nat.mod_eq_of_lt (off + n).isLt]
        rw [wp_update]
        refine wp_mono_ok (h.extended hlocked (by rwa [hsize]) hoff' (by rwa [hsize])
          (by rwa [hsize]) hcontents) ?_
        rintro - v' ⟨T', hsaved⟩
        rw [hsize] at hsaved
        refine hwritten T' v' ?_
        rwa [sizeAfter, if_pos hlt]
      · intro hsame
        have hle : off.toNat + n.toNat ≤ (T (v.inode ip).inum).size.toNat := by
          refine Nat.not_lt.1 fun hlt => hsame ⟨?_, hlt⟩
          have hn : 0 < n.toNat := by omega
          exact hn
        -- the file has not grown, so every block was there
        obtain rfl : T₁ = T := hkept fun bn _ _ hbn =>
          h.noHole _ ho.inum_lt hcontents bn (Nat.lt_of_lt_of_le hbn hle)
        refine hwritten T₁ v₁ ?_
        rw [sizeAfter, if_neg (Nat.not_lt.2 hle)]
        exact h.saved hlocked hwrote
    · rintro e ⟨v', logged⟩ ⟨he, ⟨T', hgrown, -⟩, hshort⟩
      obtain ⟨hout, hshort⟩ := hshort hfits
      exact ⟨⟨he, h.intact_of_grown href hvalid hgrown⟩, hout, hallowed,
        hshort _ (covers_spanPlaces _ _ _)⟩

/-- What a search of a directory can do to the volume: find an entry and take a
reference to its inode. -/
theorem dirlookupFrom_spec (name : ℕ → BitVec 8) (rounds : ℕ) :
    ∀ off, wp (dirlookupFrom sb devsw ip name rounds off) (fun r v' => Sound sb T v' ∧ match r with
        | none => v' = v
        | some (iq, _) => 0 < (v'.inode iq).ref) (Stopped sb) v := by
  induction rounds with
  | zero => exact fun _ => ⟨h, rfl⟩
  | succ rounds ih =>
    intro off
    simp only [dirlookupFrom, wp_bind, wp_look, wp_ite]
    refine ⟨fun _ => ?_, fun _ => ⟨h, rfl⟩⟩
    refine wp_mono_ok (readi_spec h hlocked devsw _ _) ?_
    rintro ⟨r, bytes⟩ v' ⟨rfl, -⟩
    refine ⟨fun _ => ⟨by decide, h.intact⟩, fun _ => ⟨fun _ => ih _, fun _ => ⟨fun _ => ?_,
      fun _ => ih _⟩⟩⟩
    refine wp_mono (iget_spec h _) (fun iq v'' h' => ⟨h'.1, h'.2.1⟩) ?_
    rintro e v'' ⟨rfl, rfl⟩
    exact ⟨by decide, h.intact⟩

theorem dirlookup_spec (name : ℕ → BitVec 8) :
    wp (dirlookup sb devsw ip name) (fun r v' => Sound sb T v' ∧ match r with
        | none => v' = v
        | some (iq, _) => 0 < (v'.inode iq).ref) (Stopped sb) v := by
  simp only [dirlookup, wp_bind, wp_look, wp_ite, wp_stop]
  exact ⟨fun _ => ⟨by decide, h.intact⟩, fun _ => dirlookupFrom_spec h hlocked devsw name _ 0⟩

theorem findEmpty_spec (rounds : ℕ) :
    ∀ off, wp (findEmpty sb devsw ip rounds off) (fun _ v' => v' = v) (Stopped sb) v := by
  induction rounds with
  | zero => exact fun _ => rfl
  | succ rounds ih =>
    intro off
    simp only [findEmpty, wp_bind, wp_look, wp_ite]
    refine ⟨fun _ => ?_, fun _ => rfl⟩
    refine wp_mono_ok (readi_spec h hlocked devsw _ _) ?_
    rintro ⟨r, bytes⟩ v' ⟨rfl, -⟩
    exact ⟨fun _ => ⟨by decide, h.intact⟩, fun _ => ⟨fun _ => rfl, fun _ => ih _⟩⟩

theorem dirlink_spec (name : ℕ → BitVec 8) (inum : ℕ) :
    wp (dirlink sb devsw ip name inum) (fun _ v' => ∃ T', Sound sb T' v') (Stopped sb) v := by
  rw [dirlink, wp_bind]
  refine wp_mono_post (dirlookup_spec h hlocked devsw name) ?_
  rintro (_ | ⟨iq, off⟩) v' ⟨h', hfound⟩
  · obtain rfl := hfound
    simp only [wp_bind, wp_look, wp_ite, wp_stop, wp_pure]
    refine wp_mono_post (findEmpty_spec h hlocked devsw _ 0) ?_
    rintro off v' rfl
    refine wp_mono (writei_spec h hlocked devsw _ _ _) ?_ fun _ _ h => h.1
    rintro r v' ⟨T', h', -⟩
    exact ⟨fun _ => ⟨by decide, h'.intact⟩, fun _ => ⟨T', h'⟩⟩
  · simp only [wp_bind, wp_pure]
    refine wp_mono (iput_spec h' hfound) (fun _ _ h => h.1) ?_
    rintro e v'' ⟨rfl, rfl, -⟩
    exact ⟨by decide, h'.intact⟩

end Xv6.FileSystem
