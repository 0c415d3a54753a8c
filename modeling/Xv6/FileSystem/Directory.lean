import Mathlib.Data.Nat.Find
import Xv6.FileSystem.Dirents
import Xv6.FileSystem.Files

/-!
# Directories

`dirlookup`, `dirlink` and the clearing of an entry by `sys_unlink` are the operations of the
finite map that the bytes of a directory hold. `dirlink` returns -1 for a name that is there, but
to do so it drops the reference that `dirlookup` took, and for that `iput` acquires the lock of
the inode. If another process holds it, `dirlink` waits and then returns. If the entry names the
directory itself, the caller holds that lock.
-/

namespace Xv6.FileSystem

open Routine Option Finset Nat

variable {sb : Superblock} {devsw : Devices} {T : Table} {v v₁ v' : Volume} {dp ip : Slot}
  {d k : ℕ} {s t : ℕ → BitVec 8}

/-- The caller has locked directory `d`, in slot `dp`. -/
structure Held (d : ℕ) (dp : Slot) (v : Volume) : Prop where
  inum : (v.inode dp).inum = d
  locked : (v.inode dp).locked = true
  type : (v.inode dp).type = tDir

def entered : Option (BitVec 16 × ℕ) → VolumeM (Option (Slot × ℕ))
  | none => pure none
  | some (inum, off) => do
      let ip ← iget inum.toNat
      pure (some (ip, off))

def vacancy (D : List (BitVec 8)) : ℕ :=
  Nat.find (p := fun k => ¬ Used D k) ⟨D.length / direntSize, fun h => Nat.lt_irrefl _ h.1⟩

theorem vacancy_le (D : List (BitVec 8)) : vacancy D ≤ D.length / direntSize :=
  Nat.find_min' _ fun h => Nat.lt_irrefl _ h.1

theorem not_used_vacancy (D : List (BitVec 8)) : ¬ Used D (vacancy D) :=
  Nat.find_spec (p := fun k => ¬ Used D k) _

section Search

variable (hwf : WellFormed sb v) (hheld : Held d dp v) (hdir : Directory (v.file sb d))

include hwf hheld

theorem toNat_size : (v.inode dp).size.toNat = (v.file sb d).length := by
  have ho : Opened sb (v.dinode sb) dp v := Sound.opened hwf hheld.locked
  rw [length_file, ← hheld.inum, ← ho.copy]

theorem readi_dirent (devsw : Devices) (hk : k < (v.file sb d).length / direntSize) :
    ∃ bytes, readi sb devsw dp (BitVec.ofNat 32 (direntSize * k)) (BitVec.ofNat 32 direntSize) v =
      (.ok ((direntSize : ℕ), bytes), v) ∧ Dirent.decode bytes = dirent (v.file sb d) k := by
  have hlt := (v.inode dp).size.isLt
  rw [toNat_size hwf hheld] at hlt
  have hfit : direntSize * k + direntSize ≤ (v.file sb d).length := by
    exact (mul_le_mul_left _ hk).trans (mul_div_le ..)
  have hoff : (BitVec.ofNat 32 (direntSize * k)).toNat = direntSize * k := by
    rw [BitVec.toNat_ofNat, mod_eq_of_lt (by omega)]
  have hread := readi_file hwf hheld.locked (by rw [hheld.type]; decide) devsw
    (BitVec.ofNat 32 (direntSize * k)) (BitVec.ofNat 32 direntSize)
  have hn : (BitVec.ofNat 32 direntSize).toNat = direntSize := rfl
  rw [hheld.inum, hoff, hn, readBytes, if_neg (by omega), readResult, List.length_take,
    List.length_drop, min_eq_left (by omega)] at hread
  exact ⟨_, hread, decode_take_drop hfit⟩

include hdir

theorem lt_size_iff :
    direntSize * k < (v.inode dp).size.toNat ↔ k < (v.file sb d).length / direntSize := by
  obtain ⟨n, hn⟩ := hdir.aligned
  rw [toNat_size hwf hheld, hn, Nat.mul_div_cancel_left _ (by decide),
    Nat.mul_lt_mul_left (by decide)]

/-- The loop of `dirlookup`, by induction on its rounds. `o` is the entry that is to be found. -/
theorem dirlookupFrom_eq {o : Option ℕ} (rounds : ℕ) :
    ∀ k, (v.file sb d).length / direntSize ≤ k + rounds →
      (∀ l, o = some l ↔ k ≤ l ∧ Names (v.file sb d) t l) →
      dirlookupFrom sb devsw dp t rounds (direntSize * k) v =
        entered (o.map fun l => ((dirent (v.file sb d) l).inum, direntSize * l)) v := by
  have hend : ∀ k, (v.file sb d).length / direntSize ≤ k →
      (∀ l, o = some l ↔ k ≤ l ∧ Names (v.file sb d) t l) → o = none := by
    intro k hk ho
    refine eq_none_iff_forall_ne_some.2 fun l hl => ?_
    obtain ⟨hle, hname⟩ := (ho l).1 hl
    exact not_lt.2 (hk.trans hle) hname.1.1
  induction rounds with
  | zero =>
    intro k hk ho
    rw [hend k hk ho]
    rfl
  | succ rounds ih =>
    intro k hk ho
    have hskip : ¬ Names (v.file sb d) t k →
        dirlookupFrom sb devsw dp t rounds (direntSize * k + direntSize) v =
          entered (o.map fun l => ((dirent (v.file sb d) l).inum, direntSize * l)) v := by
      intro hnot
      refine ih (k + 1) (by omega) fun l => (ho l).trans (and_congr_left fun hname => ?_)
      have hne : k ≠ l := fun heq => hnot (heq ▸ hname)
      omega
    rw [dirlookupFrom, bind_of_ok (x := look _) rfl]
    split_ifs with hlt
    · have hlt' := (lt_size_iff hwf hheld hdir).1 hlt
      obtain ⟨bytes, hread, hbytes⟩ := readi_dirent hwf hheld devsw hlt'
      rw [bind_of_ok hread]
      dsimp only
      rw [if_neg (not_not.2 rfl), hbytes]
      split_ifs with hunused hname
      · exact hskip fun h => h.1.2 hunused
      · rw [(ho k).2 ⟨le_refl k, ⟨hlt', hunused⟩, hname⟩]
        rfl
      · exact hskip fun h => hname h.2
    · rw [hend k (not_lt.1 fun h => hlt ((lt_size_iff hwf hheld hdir).2 h)) ho]
      rfl

theorem dirlookup_eq (devsw : Devices) (t : ℕ → BitVec 8) :
    dirlookup sb devsw dp t v = entered (find (v.file sb d) t) v := by
  have hrounds : (v.file sb d).length / direntSize ≤ 0 + (v.inode dp).size.toNat := by
    rw [toNat_size hwf hheld, zero_add]
    exact div_le_self ..
  rw [dirlookup, bind_of_ok (x := look _) rfl, if_neg (not_not.2 hheld.type)]
  by_cases hname : ∃ k, Names (v.file sb d) t k
  · obtain ⟨k, hk⟩ := hname
    rw [hdir.find_eq_some hk]
    refine dirlookupFrom_eq hwf hheld hdir (o := some k) _ 0 hrounds fun l => ?_
    rw [some_inj]
    exact ⟨fun h => ⟨zero_le l, h ▸ hk⟩, fun h => hdir.unique t k l hk h.2⟩
  · rw [find_eq_none (not_exists.1 hname)]
    refine dirlookupFrom_eq hwf hheld hdir (o := none) _ 0 hrounds fun l => ?_
    exact ⟨fun h => absurd h.symm (some_ne_none l), fun h => absurd ⟨l, h.2⟩ hname⟩

theorem findEmpty_eq (rounds : ℕ) :
    ∀ k, (v.file sb d).length / direntSize ≤ k + rounds → k ≤ vacancy (v.file sb d) →
      findEmpty sb devsw dp rounds (direntSize * k) v =
        (.ok (direntSize * vacancy (v.file sb d)), v) := by
  have hend : ∀ k, ¬ Used (v.file sb d) k → k ≤ vacancy (v.file sb d) →
      k = vacancy (v.file sb d) := fun k hk hle => Nat.le_antisymm hle (Nat.find_min' _ hk)
  induction rounds with
  | zero =>
    intro k hk hle
    rw [← hend k (fun h => Nat.not_lt.2 hk h.1) hle]
    rfl
  | succ rounds ih =>
    intro k hk hle
    rw [findEmpty, bind_of_ok (x := look _) rfl]
    split_ifs with hlt
    · have hlt' := (lt_size_iff hwf hheld hdir).1 hlt
      obtain ⟨bytes, hread, hbytes⟩ := readi_dirent hwf hheld devsw hlt'
      rw [bind_of_ok hread]
      dsimp only
      rw [if_neg (not_not.2 rfl), hbytes]
      split_ifs with hunused
      · rw [← hend k (fun h => h.2 hunused) hle]
        rfl
      · have hused : Used (v.file sb d) k := ⟨hlt', hunused⟩
        have hne : k ≠ vacancy (v.file sb d) := fun heq =>
          not_used_vacancy (v.file sb d) (heq ▸ hused)
        exact ih (k + 1) (by omega) (by omega)
    · rw [← hend k (fun h => hlt ((lt_size_iff hwf hheld hdir).2 h.1)) hle]
      rfl

end Search

def Volume.Unlocked (v : Volume) (i : ℕ) : Prop :=
  ∀ q, 0 < (v.inode q).ref → (v.inode q).inum = i → (v.inode q).locked = false

/-- `iget` has taken a reference to inode `i`, in slot `ip`. It is not the last one to an inode
that has been read. -/
structure Taken (i : ℕ) (v : Volume) (ip : Slot) (v₁ : Volume) : Prop where
  block : v₁.block = v.block
  slot : ∀ q, 0 < (v.inode q).ref → v₁.inode q = { v.inode q with ref := (v₁.inode q).ref }
  lock : (v₁.inode ip).locked = false ↔ v.Unlocked i
  kept : ¬ ((v₁.inode ip).valid = true ∧ (v₁.inode ip).nlink = 0 ∧ (v₁.inode ip).ref = 1)

theorem iget_taken (h : Sound sb T v) (i : ℕ) :
    wp (iget i) (Taken i v) (fun _ _ => v.Unlocked i) v := by
  simp only [iget, wp_bind, wp_look, id_eq]
  cases hfind : (List.finRange nInode).find? (fun p =>
      decide (0 < (v.inode p).ref ∧ (v.inode p).inum = i)) with
  | some ip =>
    obtain ⟨href, hinum⟩ := find_cached hfind
    refine ⟨rfl, fun q _ => ?_, ?_, ?_⟩
    · by_cases hq : q = ip
      · rw [hq, v.modifyInode_inode_self]
      · rw [v.modifyInode_inode_of_ne _ hq]
    · rw [v.modifyInode_inode_self]
      refine ⟨fun hlock q hq hi => ?_, fun hfree => hfree ip href hinum⟩
      rw [h.unique q ip hq href (hi.trans hinum.symm)]
      exact hlock
    · rw [v.modifyInode_inode_self]
      rintro ⟨-, -, hone⟩
      exact ne_of_gt href (Nat.succ.inj hone)
  | none =>
    have hnot : ∀ q, 0 < (v.inode q).ref → (v.inode q).inum ≠ i := fun q hq heq =>
      List.find?_eq_none.1 hfind q (List.mem_finRange q) (decide_eq_true ⟨hq, heq⟩)
    have hfree : v.Unlocked i := fun q hq hi => absurd hi (hnot q hq)
    cases hempty : (List.finRange nInode).find? (fun p => decide ((v.inode p).ref = 0)) with
    | none => exact hfree
    | some ip =>
      have hzero := List.find?_some hempty
      simp only [decide_eq_true_eq] at hzero
      refine ⟨rfl, fun q hq => ?_, ?_, ?_⟩
      · rw [v.modifyInode_inode_of_ne]
        rintro rfl
        exact ne_of_gt hq hzero
      · rw [v.modifyInode_inode_self]
        refine iff_of_true (Bool.eq_false_iff.2 fun hlock => ?_) hfree
        exact ne_of_gt (h.locked ip hlock).1 hzero
      · rw [v.modifyInode_inode_self]
        exact fun hvalid => Bool.noConfusion hvalid.1

/-- Dropping the reference again waits for the lock and then changes no block. -/
theorem Taken.iput_spec {i : ℕ} (h : Taken i v ip v₁) :
    wp (iput sb ip) (fun _ v' => v.Unlocked i ∧ v'.block = v.block)
      (fun _ _ => ¬ v.Unlocked i) v₁ := by
  simp only [iput, acquiresleep, releasesleep, dropRef, wp_bind, wp_look, wp_ite, wp_stop,
    wp_update, Volume.modifyInode_inode_self]
  refine ⟨fun hlock hfree => ?_, fun hlock => ⟨fun hlast => absurd hlast h.kept, fun _ =>
    ⟨h.lock.1 (Bool.eq_false_iff.2 hlock), h.block⟩⟩⟩
  simp [h.lock.2 hfree] at hlock

theorem file_of_data (h : WellFormed sb v) {j : ℕ} (hdinode : v'.dinode sb j = v.dinode sb j)
    (hdata : ∀ c ∈ sb.data, v'.block c = v.block c) : v'.file sb j = v.file sb j := by
  have hledger : Ledger sb (v.dinode sb) ∅ v.block := Sound.ledger h
  have haddr : ∀ k, addrTarget sb (v'.dinode sb) j k = addrTarget sb (v.dinode sb) j k := by
    intro k
    rw [addrTarget, addrTarget, hdinode]
  refine contents_congr (by rw [hdinode]) fun k => ?_
  rw [byteOf, byteOf, blockTarget_congr haddr fun b hb =>
    hdata b (hledger.mem_data (p := .addr j indirectSlot) hb)]
  cases hb : blockTarget sb (v.dinode sb) v.block j (k / bSize) with
  | none => rfl
  | some b =>
    obtain ⟨p, hp, -⟩ := exists_of_blockTarget hb
    rw [map_some, map_some, hdata b (hledger.mem_data hp)]

theorem file_of_block (h : v'.block = v.block) (i : ℕ) : v'.file sb i = v.file sb i := by
  have hdinode : v'.dinode sb = v.dinode sb := by
    funext j
    rw [Volume.dinode, h, Volume.dinode]
  rw [Volume.file, hdinode, h, Volume.file]

theorem Taken.held {i : ℕ} (h : Taken i v ip v₁) (hsound : Sound sb T v) (hheld : Held d dp v) :
    Held d dp v₁ := by
  have hslot := h.slot dp (hsound.locked dp hheld.locked).1
  constructor <;> rw [hslot]
  · exact hheld.inum
  · exact hheld.locked
  · exact hheld.type

theorem missing_spanPlaces {block : ℕ → Block} {i lo hi : ℕ}
    (h : ∀ bn ∈ span lo hi, blockTarget sb T block i bn ≠ none) :
    missing sb T block (spanPlaces i lo hi) = 0 := by
  refine card_eq_zero.2 (filter_eq_empty_iff.2 fun p hp hnone => ?_)
  obtain ⟨bn, hbn, hp⟩ := mem_biUnion.1 hp
  have hb := h bn (mem_filter.1 hbn).2
  unfold blockPlaces at hp
  unfold blockTarget at hb
  split_ifs at hp hb with hdirect hindirect
  · rw [mem_singleton.1 hp] at hnone
    exact hb hnone
  · rcases mem_insert.1 hp with rfl | hp
    · rw [target] at hnone
      rw [target, hnone] at hb
      exact hb rfl
    · rw [mem_singleton.1 hp] at hnone
      exact hb hnone
  · exact absurd rfl hb

theorem lt_maxFile {block : ℕ → Block} {i bn : ℕ} (h : blockTarget sb T block i bn ≠ none) :
    bn < maxFile := by
  by_contra hge
  rw [maxFile] at hge
  rw [blockTarget, if_neg (by omega), dif_neg (by omega)] at h
  exact h rfl

section Operations

variable (hwf : WellFormed sb v) (hheld : Held d dp v) (hdir : Directory (v.file sb d))

include hwf hheld hdir

/-- An entry is written as a whole, in its place or at the end of the directory. -/
theorem writei_entry {g : ℕ} (hg : g ≤ (v.file sb d).length / direntSize) (src : ℕ → BitVec 8) :
    wp (writei sb devsw dp src (BitVec.ofNat 32 (direntSize * g)) (BitVec.ofNat 32 direntSize))
      (fun r v' => WellFormed sb v' ∧ Held d dp v' ∧ (r = direntSize ∧
            v'.file sb d = storeEntry (v.file sb d) g ((List.range direntSize).map src) ∨
          r ≠ direntSize ∧ v' = v ∧ maxFile * bSize < direntSize * g + direntSize))
      (fun _ _ => freeBlocks sb v.block < missing sb (v.dinode sb) v.block
        (spanPlaces d (direntSize * g) (direntSize * g + direntSize))) v := by
  have hlt := (v.inode dp).size.isLt
  rw [toNat_size hwf hheld] at hlt
  have hle : direntSize * g ≤ (v.file sb d).length :=
    (mul_le_mul_left _ hg).trans (mul_div_le ..)
  have hoff : (BitVec.ofNat 32 (direntSize * g)).toNat = direntSize * g := by
    rw [BitVec.toNat_ofNat, mod_eq_of_lt (by omega)]
  have hn : (BitVec.ofNat 32 direntSize).toNat = direntSize := rfl
  have hwrite := writei_file hwf hheld.locked (by rw [hheld.type]; decide) devsw
    (BitVec.ofNat 32 (direntSize * g)) (BitVec.ofNat 32 direntSize) src
  rw [hheld.inum, hoff, hn, writeBytes, List.length_map, List.length_range] at hwrite
  refine wp_mono hwrite ?_ fun _ _ h => h.2
  rintro r v' ⟨hwf', hbytes, -, size, addrs, hslot⟩
  have hheld' : Held d dp v' := by
    constructor <;> rw [hslot]
    · exact hheld.inum
    · exact hheld.locked
    · exact hheld.type
  refine ⟨hwf', hheld', ?_⟩
  split_ifs at hbytes with hrefused
  · obtain ⟨rfl, rfl⟩ := hbytes
    refine .inr ⟨by decide, rfl, ?_⟩
    rcases hrefused with hpast | hwrap | hmax
    · exact absurd hpast (not_lt.2 hle)
    · exact lt_of_lt_of_le (by decide) hwrap
    · exact hmax
  · exact .inl hbytes

/-- A name that is not there: `dirlink` stores its entry in the first place that is not in use. -/
theorem dirlink_fresh (hfind : find (v.file sb d) s = none) (inum : ℕ) :
    wp (dirlink sb devsw dp s inum) (fun r v' => r = 0 ∧ WellFormed sb v' ∧ Held d dp v' ∧
        v'.file sb d = storeEntry (v.file sb d) (vacancy (v.file sb d)) (newEntry inum s))
      (fun _ _ => (v.file sb d).length < maxFile * bSize →
        freeBlocks sb v.block < missing sb (v.dinode sb) v.block
          (spanPlaces d (direntSize * vacancy (v.file sb d))
            (direntSize * vacancy (v.file sb d) + direntSize))) v := by
  have hlookup : dirlookup sb devsw dp s v = (.ok none, v) := by
    rw [dirlookup_eq hwf hheld hdir, hfind]
    rfl
  have hrounds : (v.file sb d).length / direntSize ≤ 0 + (v.inode dp).size.toNat := by
    rw [toNat_size hwf hheld, Nat.zero_add]
    exact Nat.div_le_self ..
  have hempty : findEmpty sb devsw dp (v.inode dp).size.toNat 0 v = _ :=
    findEmpty_eq hwf hheld hdir _ 0 hrounds (Nat.zero_le _)
  have hfit : (v.file sb d).length < maxFile * bSize →
      direntSize * vacancy (v.file sb d) + direntSize ≤ maxFile * bSize := by
    intro hlt
    have hle := vacancy_le (v.file sb d)
    have hmax : maxFile * bSize = direntSize * 4480 := rfl
    rw [hmax] at hlt ⊢
    exact Nat.mul_le_mul_left _ (Nat.lt_of_le_of_lt hle (Nat.div_lt_of_lt_mul hlt))
  rw [dirlink, wp_bind, wp_iff_of_ok hlookup]
  rw [wp_bind, wp_look, wp_bind, wp_iff_of_ok hempty]
  simp only [wp_bind, wp_ite, wp_stop, wp_pure]
  refine wp_mono (writei_entry hwf hheld hdir (vacancy_le _) _) ?_ fun _ _ h _ => h
  rintro r v' ⟨hwf', hheld', ⟨rfl, hfile⟩ | ⟨hr, -, hmax⟩⟩
  · exact ⟨fun hne => absurd rfl hne, fun _ => ⟨trivial, hwf', hheld', hfile⟩⟩
  · exact ⟨fun _ hlt => absurd (hfit hlt) (Nat.not_le.2 hmax), fun h => absurd hr h⟩

/-- A name that is there: `dirlink` returns -1 if it gets the lock of the inode. -/
theorem dirlink_found (devsw : Devices) {i : BitVec 16} {off : ℕ}
    (hfind : find (v.file sb d) s = some (i, off)) (inum : ℕ) :
    wp (dirlink sb devsw dp s inum) (fun r v' => r = -1 ∧ v.Unlocked i.toNat ∧ v'.block = v.block)
      (fun _ _ => v.Unlocked i.toNat → ∃ e v₁, dirlookup sb devsw dp s v = (.error e, v₁)) v := by
  have hlookup := dirlookup_eq hwf hheld hdir devsw s
  rw [hfind, entered] at hlookup
  have htaken := iget_taken hwf i.toNat
  rcases hget : iget i.toNat v with ⟨e | ip, v₁⟩
  · rw [bind_of_error hget] at hlookup
    rw [wp, dirlink, bind_of_error hlookup]
    exact fun _ => ⟨e, v₁, hlookup⟩
  · rw [bind_of_ok hget] at hlookup
    rw [wp_iff_of_ok hget] at htaken
    rw [dirlink, wp_bind, wp_iff_of_ok hlookup]
    rw [wp_bind]
    exact wp_mono htaken.iput_spec (fun _ _ h => ⟨rfl, h⟩) fun _ _ h hfree => absurd hfree h

theorem dirlookup_some {off : ℕ}
    (hlookup : dirlookup sb devsw dp s v = (.ok (some (ip, off)), v₁)) :
    WellFormed sb v₁ ∧ Held d dp v₁ ∧ v₁.file sb d = v.file sb d ∧
      ∃ k, Names (v.file sb d) s k ∧ off = direntSize * k := by
  rw [dirlookup_eq hwf hheld hdir] at hlookup
  cases hfind : find (v.file sb d) s with
  | none =>
    rw [hfind] at hlookup
    cases hlookup
  | some x =>
    obtain ⟨k, hk, rfl⟩ := names_of_find hfind
    rw [hfind] at hlookup
    have hget := wp_and (iget_spec hwf (dirent (v.file sb d) k).inum.toNat)
      (iget_taken hwf (dirent (v.file sb d) k).inum.toNat)
    have hspec : wp (entered (some ((dirent (v.file sb d) k).inum, direntSize * k))) (fun r v₁ =>
        r = some (ip, off) → off = direntSize * k ∧ WellFormed sb v₁ ∧ Held d dp v₁ ∧
          v₁.file sb d = v.file sb d) (fun _ _ => True) v := by
      rw [entered, wp_bind]
      refine wp_mono hget ?_ fun _ _ _ => trivial
      rintro ip' v' ⟨hsound, htaken⟩ heq
      obtain ⟨-, rfl⟩ := Prod.mk.inj (Option.some.inj heq)
      exact ⟨rfl, hsound.1.dinode, htaken.held hwf hheld, file_of_block htaken.block d⟩
    obtain ⟨hoff, hwf', hheld', hfile⟩ := wp_ok hspec hlookup rfl
    exact ⟨hwf', hheld', hfile, k, hk, hoff⟩

/-- The blocks of an entry are there, so that it can be cleared. -/
theorem clear_entry (hk : Names (v.file sb d) s k) :
    wp (writei sb devsw dp (fun _ => 0) (BitVec.ofNat 32 (direntSize * k))
        (BitVec.ofNat 32 direntSize))
      (fun r v' => r = direntSize ∧ WellFormed sb v' ∧ Held d dp v' ∧ v'.file sb d =
        storeEntry (v.file sb d) k ((List.range direntSize).map fun _ => 0))
      (fun _ _ => False) v := by
  have hsound : Sound sb (v.dinode sb) v := hwf
  have ho := hsound.opened hheld.locked
  have hfit : direntSize * k + direntSize ≤ (v.file sb d).length := by
    exact (Nat.mul_le_mul_left _ hk.1.1).trans (Nat.mul_div_le ..)
  have hthere : ∀ bn ∈ span (direntSize * k) (direntSize * k + direntSize),
      blockTarget sb (v.dinode sb) v.block d bn ≠ none := by
    intro bn hbn
    rw [← hheld.inum]
    refine hsound.noHole _ ho.inum_lt ⟨ho.type_ne, ?_⟩ bn ?_
    · rw [← ho.copy, hheld.type]
      decide
    · rw [hheld.inum, ← length_file]
      exact Nat.lt_of_lt_of_le hbn.2 hfit
  refine wp_mono (writei_entry hwf hheld hdir (Nat.le_of_lt hk.1.1) _) ?_ fun _ _ hshort => ?_
  · rintro r v' ⟨hwf', hheld', ⟨hr, hfile⟩ | ⟨-, -, hmax⟩⟩
    · exact ⟨hr, hwf', hheld', hfile⟩
    · have hfirst : direntSize * k / bSize * bSize < direntSize * k + direntSize :=
        Nat.lt_of_le_of_lt (Nat.div_mul_le_self _ _) (Nat.lt_add_of_pos_right (by decide))
      have hlast := lt_maxFile (hthere (direntSize * k / bSize) ⟨Nat.le_refl _, hfirst⟩)
      rw [Nat.div_lt_iff_lt_mul (by decide)] at hlast
      have hmultiple : maxFile * bSize = direntSize * 4480 := rfl
      rw [hmultiple] at hlast hmax
      have hlast := Nat.lt_of_mul_lt_mul_left hlast
      exact absurd (Nat.mul_le_mul_left direntSize hlast) (Nat.not_le.2 hmax)
  · rw [missing_spanPlaces hthere] at hshort
    exact Nat.not_lt_zero _ hshort

end Operations

/-- What can happen to directory `d`: `dirlink`, the clearing of an entry that `dirlookup` has
found, and whatever leaves its contents alone. -/
inductive Change (sb : Superblock) (devsw : Devices) (d : ℕ) : Volume → Volume → Prop
  | dirlink {v v' : Volume} {dp : Slot} {name : ℕ → BitVec 8} {inum : ℕ} {r : ℤ}
      (hheld : Held d dp v)
      (h : dirlink sb devsw dp name inum v = (.ok r, v')) : Change sb devsw d v v'
  | clear {v v₁ v' : Volume} {dp ip : Slot} {name : ℕ → BitVec 8} {off : ℕ} {r : ℤ}
      (hheld : Held d dp v)
      (hlookup : dirlookup sb devsw dp name v = (.ok (some (ip, off)), v₁))
      (h : writei sb devsw dp (fun _ => 0) (BitVec.ofNat 32 off) (BitVec.ofNat 32 direntSize) v₁ =
        (.ok r, v')) : Change sb devsw d v v'
  | other {v v' : Volume} (hwf : WellFormed sb v') (h : v'.file sb d = v.file sb d) :
      Change sb devsw d v v'

theorem Change.directory (h : Change sb devsw d v v')
    (hinv : WellFormed sb v ∧ Directory (v.file sb d)) :
    WellFormed sb v' ∧ Directory (v'.file sb d) := by
  obtain ⟨hwf, hdir⟩ := hinv
  cases h with
  | @dirlink _ _ name inum _ hheld hlink =>
    cases hfind : find (v.file sb d) name with
    | none =>
      obtain ⟨-, hwf', -, hfile⟩ := wp_ok (dirlink_fresh hwf hheld hdir hfind inum) hlink
      rw [hfile]
      exact ⟨hwf', hdir.insert hfind (vacancy_le _) inum⟩
    | some x =>
      obtain ⟨-, -, hblock⟩ := wp_ok (dirlink_found hwf hheld hdir devsw hfind inum) hlink
      obtain ⟨T', hsound⟩ := wp_ok (dirlink_spec hwf hheld.locked devsw name inum) hlink
      rw [file_of_block hblock]
      exact ⟨hsound.dinode, hdir⟩
  | clear hheld hlookup hwrite =>
    obtain ⟨hwf₁, hheld₁, hfile₁, k, hk, rfl⟩ := dirlookup_some hwf hheld hdir hlookup
    rw [← hfile₁] at hdir hk
    obtain ⟨-, hwf', -, hfile⟩ := wp_ok (clear_entry hwf₁ hheld₁ hdir hk) hwrite
    rw [hfile]
    exact ⟨hwf', (hdir.erase hk).1⟩
  | other hwf' hfile =>
    rw [hfile]
    exact ⟨hwf', hdir⟩

theorem directory_of_run (hwf : WellFormed sb v) (hdir : Directory (v.file sb d))
    (hrun : Relation.ReflTransGen (Change sb devsw d) v v') :
    WellFormed sb v' ∧ Directory (v'.file sb d) := by
  induction hrun with
  | refl => exact ⟨hwf, hdir⟩
  | tail _ hstep ih => exact hstep.directory ih

/-- There are blocks for one more entry. -/
def Roomy (sb : Superblock) (d : ℕ) (v : Volume) : Prop :=
  missing sb (v.dinode sb) v.block (spanPlaces d (direntSize * vacancy (v.file sb d))
    (direntSize * vacancy (v.file sb d) + direntSize)) ≤ freeBlocks sb v.block

/-- While a process that holds the locks `mine` sleeps for the lock of slot `ip`, the others go on
from `v` to `v'` and in the end the lock is free. They leave the sleeper its reference, its locks
and the contents of what it has locked. -/
structure Awaited (sb : Superblock) (mine : Finset Slot) (ip : Slot) (v v' : Volume) : Prop where
  wellFormed : WellFormed sb v'
  free : (v'.inode ip).locked = false
  ref : 0 < (v'.inode ip).ref
  inum : (v'.inode ip).inum = (v.inode ip).inum
  locked : ∀ q ∈ mine, (v'.inode q).locked = true
  file : ∀ q ∈ mine, v'.file sb (v.inode q).inum = v.file sb (v.inode q).inum

/-- `dirlink` on directory `d` returns -1, at once or after a wait in `iput` for the lock of the
inode it has found. The wait can end, and whenever it ends the call returns and has left the
directory alone. -/
def DirlinkFails (sb : Superblock) (devsw : Devices) (mine : Finset Slot) (d : ℕ) (dp : Slot)
    (name : ℕ → BitVec 8) (inum : ℕ) (v : Volume) : Prop :=
  (∃ v', dirlink sb devsw dp name inum v = (.ok (-1), v')) ∨
    ∃ ip off v₁, dirlookup sb devsw dp name v = (.ok (some (ip, off)), v₁) ∧
      dirlink sb devsw dp name inum v = (.error .sleeping, v₁) ∧
      (∃ v₂, Awaited sb mine ip v₁ v₂) ∧ ∀ v₂, Awaited sb mine ip v₁ v₂ →
        ∃ v', iput sb ip v₂ = (.ok (), v') ∧ WellFormed sb v' ∧ v'.file sb d = v.file sb d

theorem iput_sleeps (h : (v.inode ip).locked = true) : iput sb ip v = (.error .sleeping, v) := by
  have hstop : acquiresleep ip v = (.error .sleeping, v) := by
    simp only [acquiresleep, bind, look, h]
    rfl
  exact bind_of_error hstop

section Waiting

variable {mine : Finset Slot}

/-- The lock can become free: its holder releases it. -/
theorem exists_awaited (hwf : WellFormed sb v) (hlock : (v.inode ip).locked = true)
    (hnot : ip ∉ mine) (hmine : ∀ q ∈ mine, (v.inode q).locked = true) :
    ∃ v', Awaited sb mine ip v v' := by
  have hsound : Sound sb (v.dinode sb) v := hwf
  obtain ⟨href, hvalid⟩ := hsound.locked ip hlock
  have hslot := v.modifyInode_inode_self ip fun x => { x with locked := false }
  refine ⟨v.modifyInode ip fun x => { x with locked := false }, ?_, ?_, ?_, ?_, fun q hq => ?_,
    fun q _ => rfl⟩
  · refine hsound.modifySlot (fun q hq _ hq' heq => hq (hsound.unique ip q href hq' heq).symm)
      (fun _ _ => ?_) (by simp)
    obtain ⟨hlt, hcopy, htype⟩ := hsound.cached ip href hvalid
    constructor <;> rwa [v.modifyInode_inode_self]
  · rw [hslot]
  · rwa [hslot]
  · rw [hslot]
  · have hne : q ≠ ip := fun heq => hnot (heq ▸ hq)
    rw [v.modifyInode_inode_of_ne _ hne]
    exact hmine q hq

/-- Whoever has waited drops the reference, and no other inode changes. -/
theorem Awaited.iput (h : Awaited sb mine ip v v') (hd : d < sb.ninodes)
    (hne : d ≠ (v.inode ip).inum) :
    ∃ v₂, iput sb ip v' = (.ok (), v₂) ∧ WellFormed sb v₂ ∧ v₂.file sb d = v'.file sb d := by
  obtain ⟨_, v₂, hput, ⟨T, hsound⟩, hdinode, hdata⟩ := wp_returns (iput_spec h.wellFormed h.ref)
    fun _ _ hstop => Bool.noConfusion (h.free.symm.trans hstop.2.2)
  exact ⟨v₂, hput, hsound.dinode, file_of_data h.wellFormed (hdinode d hd (h.inum ▸ hne)) hdata⟩

theorem dirlink_fails_iff (hwf : WellFormed sb v) (hheld : Held d dp v)
    (hdir : Directory (v.file sb d)) (hdp : dp ∈ mine)
    (hmine : ∀ q ∈ mine, (v.inode q).locked = true) {i : BitVec 16} {off : ℕ}
    (hfind : find (v.file sb d) s = some (i, off)) (inum : ℕ) :
    ((DirlinkFails sb devsw mine d dp s inum v ↔
        ∃ r v', dirlookup sb devsw dp s v = (.ok (some r), v')) ↔
      ∀ q ∈ mine, (v.inode q).inum ≠ i.toNat) := by
  have hspec := dirlink_found hwf hheld hdir devsw hfind inum
  have hlookup := dirlookup_eq hwf hheld hdir devsw s
  have hsound : Sound sb (v.dinode sb) v := hwf
  have hget := wp_and (iget_spec hwf i.toNat) (iget_taken hwf i.toNat)
  -- an inode whose lock nobody holds is not one of the caller's
  have hfree : v.Unlocked i.toNat → ∀ q ∈ mine, (v.inode q).inum ≠ i.toNat :=
    fun hunlocked q hq heq => Bool.noConfusion <|
      (hmine q hq).symm.trans (hunlocked q (hsound.locked q (hmine q hq)).1 heq)
  rw [hfind, entered] at hlookup
  rcases hi : iget i.toNat v with ⟨e | ip, v₁⟩
  · -- without a free slot in the inode cache neither of them returns
    rw [bind_of_error hi] at hlookup
    rw [wp, hi] at hget
    refine iff_of_true (iff_of_false ?_ ?_) (hfree hget.2)
    · rintro (⟨v', hlink⟩ | ⟨ip, off, v', hfound, -⟩)
      · simp [dirlink, bind_of_error hlookup] at hlink
      · cases hlookup.symm.trans hfound
    · rintro ⟨r, v', hfound⟩
      cases hlookup.symm.trans hfound
  · rw [bind_of_ok hi] at hlookup
    rw [wp_iff_of_ok hi] at hget
    obtain ⟨⟨hsound₁, href, hinum, -⟩, htaken⟩ := hget
    have hslot : ∀ q ∈ mine, v₁.inode q = { v.inode q with ref := (v₁.inode q).ref } :=
      fun q hq => htaken.slot q (hsound.locked q (hmine q hq)).1
    have hmine₁ : ∀ q ∈ mine, (v₁.inode q).locked = true := fun q hq => by
      rw [hslot q hq]
      exact hmine q hq
    have hself : ∀ q ∈ mine, (v₁.inode q).inum = (v.inode q).inum := fun q hq => by
      rw [hslot q hq]
    constructor
    · intro hfails q hq heq
      rcases hfails.2 ⟨_, _, hlookup⟩ with ⟨v', hlink⟩ | ⟨ip', off', v', hfound, -, ⟨v₂, hwait⟩, -⟩
      · exact hfree (wp_ok hspec hlink).2.1 q hq heq
      · cases hlookup.symm.trans hfound
        have hq' : q = ip := hsound₁.unique q ip (hsound₁.locked q (hmine₁ q hq)).1 href
          ((hself q hq).trans (heq.trans hinum.symm))
        exact Bool.noConfusion ((hwait.locked q hq).symm.trans (hq' ▸ hwait.free))
    · intro hnot
      refine iff_of_true ?_ ⟨_, _, hlookup⟩
      have hip : ip ∉ mine := fun hmem => hnot ip hmem ((hself ip hmem).symm.trans hinum)
      cases hlock : (v₁.inode ip).locked with
      | false =>
        obtain ⟨r, v', hlink, rfl, -⟩ := wp_returns hspec fun _ _ hstop => by
          obtain ⟨e, v', herror⟩ := hstop (htaken.lock.1 hlock)
          cases hlookup.symm.trans herror
        exact .inl ⟨v', hlink⟩
      | true =>
        have hsleeps : dirlink sb devsw dp s inum v = (.error .sleeping, v₁) := by
          rw [dirlink, bind_of_ok hlookup]
          exact bind_of_error (iput_sleeps hlock)
        refine .inr ⟨ip, off, v₁, hlookup, hsleeps,
          exists_awaited hsound₁.dinode hlock hip hmine₁, fun v₂ hwait => ?_⟩
        have hd : d < sb.ninodes := hheld.inum ▸ (hsound.opened hheld.locked).inum_lt
        obtain ⟨v', hput, hwf', hfile⟩ := hwait.iput hd
          fun heq => hnot dp hdp (hheld.inum.trans (heq.trans hinum))
        have hkept := hwait.file dp hdp
        rw [hself dp hdp, hheld.inum, file_of_block htaken.block] at hkept
        exact ⟨v', hput, hwf', hfile.trans hkept⟩

end Waiting

/-- A directory is a finite map. Every name has one entry at most, `dirlookup` looks it up,
`dirlink` adds a name that is not there and clearing an entry removes its name. For a name that is
there `dirlink` fails, perhaps after a wait, if and only if the caller itself does not hold the
lock of its inode. `mine` are the locks of the caller. -/
theorem directory_finite_map {v₀ : Volume} (hwf : WellFormed sb v₀)
    (hdir : Directory (v₀.file sb d)) (hrun : Relation.ReflTransGen (Change sb devsw d) v₀ v) :
    DistinctNames (v.file sb d) ∧ ∀ dp, Held d dp v →
      (∀ t, dirlookup sb devsw dp t v = entered (find (v.file sb d) t) v) ∧
      (∀ s inum, 1 ≤ inum → inum < 2 ^ 16 → (v.file sb d).length < maxFile * bSize → Roomy sb d v →
        (∀ mine : Finset Slot, dp ∈ mine → (∀ q ∈ mine, (v.inode q).locked = true) →
          ((DirlinkFails sb devsw mine d dp s inum v ↔
              ∃ r v', dirlookup sb devsw dp s v = (.ok (some r), v')) ↔
            ∀ i off, find (v.file sb d) s = some (i, off) →
              ∀ q ∈ mine, (v.inode q).inum ≠ i.toNat)) ∧
        (find (v.file sb d) s = none → ∃ off v', dirlink sb devsw dp s inum v = (.ok 0, v') ∧
          Held d dp v' ∧ ∀ t, find (v'.file sb d) t =
            if SameName s t then some (BitVec.ofNat 16 inum, off) else find (v.file sb d) t)) ∧
      ∀ s ip off v₁, dirlookup sb devsw dp s v = (.ok (some (ip, off)), v₁) →
        ∃ v', writei sb devsw dp (fun _ => 0) (BitVec.ofNat 32 off) (BitVec.ofNat 32 direntSize)
            v₁ = (.ok direntSize, v') ∧
          Held d dp v' ∧ ∀ t, find (v'.file sb d) t =
            if SameName s t then none else find (v.file sb d) t := by
  obtain ⟨hwf, hdir⟩ := directory_of_run hwf hdir hrun
  refine ⟨hdir.distinctNames, fun dp hheld => ⟨dirlookup_eq hwf hheld hdir devsw,
    fun s inum hpos hlt hsize hroom => ⟨fun mine hdp hmine => ?_, fun hfind => ?_⟩,
    fun s ip off v₁ hlookup => ?_⟩⟩
  · cases hfind : find (v.file sb d) s with
    | none =>
      have hlookup := dirlookup_eq hwf hheld hdir devsw s
      rw [hfind] at hlookup
      refine iff_of_true (iff_of_false ?_ ?_) fun i off hsome => absurd hsome.symm (by simp)
      · rintro (⟨v', hlink⟩ | ⟨ip, off, v', hfound, -⟩)
        · exact absurd (wp_ok (dirlink_fresh hwf hheld hdir hfind inum) hlink).1 (by decide)
        · cases hlookup.symm.trans hfound
      · rintro ⟨r, v', hfound⟩
        cases hlookup.symm.trans hfound
    | some x =>
      refine (dirlink_fails_iff hwf hheld hdir hdp hmine hfind inum).trans
        ⟨fun hnot i off hx => ?_, fun hnot => hnot x.1 x.2 rfl⟩
      cases hx
      exact hnot
  · obtain ⟨r, v', hlink, rfl, -, hheld', hfile⟩ := wp_returns
      (dirlink_fresh hwf hheld hdir hfind inum) fun _ _ hshort =>
        not_lt.2 hroom (hshort hsize)
    refine ⟨direntSize * vacancy (v.file sb d), v', hlink, hheld', fun t => ?_⟩
    rw [hfile]
    exact hdir.find_insert hfind (vacancy_le _) (not_used_vacancy _) hpos hlt t
  · obtain ⟨hwf₁, hheld₁, hfile₁, k, hk, rfl⟩ := dirlookup_some hwf hheld hdir hlookup
    rw [← hfile₁] at hdir hk ⊢
    obtain ⟨r, v', hwrite, rfl, -, hheld', hfile⟩ := wp_returns
      (clear_entry hwf₁ hheld₁ hdir hk) fun _ _ => id
    refine ⟨v', hwrite, hheld', fun t => ?_⟩
    rw [hfile]
    exact (hdir.erase hk).2 t

def shortName (c : BitVec 8) (i : ℕ) : BitVec 8 := if i = 0 then c else 0

/-- Inode 2, which directory 1 calls `a`, is locked by another process. `dirlink` of this name
waits for it and fails. -/
theorem directory_finite_map_waits :
    ∃ v, Held 1 0 v ∧ (v.inode 1).locked = true ∧ (v.inode 1).inum = 2 ∧
      (∃ off v', dirlookup tinyDisk noDriver 0 (shortName 97) v = (.ok (some (1, off)), v')) ∧
      DirlinkFails tinyDisk noDriver {0} 1 0 (shortName 97) 3 v := by
  obtain ⟨s, hs, hpanicked, hlocked, htype, hinum, hnew, hlink, hilock, hlt, hsame, hlength, hfind,
      hheld, hother, htwo, hlookup, hroom⟩ : ∃ s, Machine.run (step tinyDisk noDriver)
      ⟨emptyVolume, none⟩ [.ialloc tDir, .ilock 0, .ialloc 2] = some s ∧
      let link := dirlink tinyDisk noDriver 0 (shortName 97) 2 s.vol
      let v₁ := link.2
      let v := (ilock tinyDisk 1 v₁).2
      s.panicked = none ∧ (s.vol.inode 0).locked = true ∧ (s.vol.inode 0).type = tDir ∧
        (s.vol.inode 0).inum = 1 ∧ s.vol.file tinyDisk 1 = [] ∧ link.1.toOption = some 0 ∧
        (ilock tinyDisk 1 v₁).1.toOption = some () ∧ (v₁.inode 1).inum < tinyDisk.ninodes ∧
        v.file tinyDisk 1 = v₁.file tinyDisk 1 ∧ (v.file tinyDisk 1).length = 16 ∧
        find (v.file tinyDisk 1) (shortName 97) = some (2, 0) ∧
        ((v.inode 0).inum = 1 ∧ (v.inode 0).locked = true ∧ (v.inode 0).type = tDir) ∧
        (v.inode 1).locked = true ∧ (v.inode 1).inum = 2 ∧
        (dirlookup tinyDisk noDriver 0 (shortName 97) v).1.toOption = some (some (1, 0)) ∧
        ∀ g ≤ 1, missing tinyDisk (v.dinode tinyDisk) v.block (spanPlaces 1 (direntSize * g)
          (direntSize * g + direntSize)) ≤ freeBlocks tinyDisk v.block := by
    decide +kernel
  obtain ⟨v₁, hv₁⟩ := ok_of_toOption 0 hlink
  rw [hv₁] at hilock hlt hsame hlength hfind hheld hother htwo hlookup hroom
  obtain ⟨v, hv⟩ := ok_of_toOption () hilock
  rw [hv] at hsame hlength hfind hheld hother htwo hlookup hroom
  obtain ⟨v', hfound⟩ := ok_of_toOption _ hlookup
  have hwf := wellFormed_of_run emptyVolume_wellFormed hs hpanicked
  have hdir : Directory (s.vol.file tinyDisk 1) := hnew ▸ directory_nil
  have hstep : Change tinyDisk noDriver 1 s.vol v₁ := .dirlink ⟨hinum, hlocked, htype⟩ hv₁
  have hspec := ilock_spec (hstep.directory ⟨hwf, hdir⟩).1 hlt
  have hsound := wp_ok hspec hv
  obtain ⟨-, hmap⟩ := directory_finite_map hwf hdir
    (.tail (.single hstep) (.other (Sound.dinode hsound) hsame))
  obtain ⟨-, hfails, -⟩ := hmap 0 ⟨hheld.1, hheld.2.1, hheld.2.2⟩
  have hvacant : vacancy (v.file tinyDisk 1) ≤ 1 := (vacancy_le _).trans (by rw [hlength]; decide)
  obtain ⟨hfails, -⟩ := hfails (shortName 97) 3 (by decide) (by decide) (by rw [hlength]; decide)
    (hroom _ hvacant)
  refine ⟨v, ⟨hheld.1, hheld.2.1, hheld.2.2⟩, hother, htwo, ⟨0, v', hfound⟩, ?_⟩
  refine ((hfails {0} (mem_singleton_self 0) fun q hq => ?_).2 fun i off hi q hq => ?_).2
    ⟨_, v', hfound⟩
  · rw [mem_singleton.1 hq]
    exact hheld.2.1
  · rw [hfind] at hi
    cases hi
    rw [mem_singleton.1 hq, hheld.1]
    decide

/-- The name `.` of a directory that has an entry for itself is found by `dirlookup`, but the
`dirlink` of another entry with this name waits for the lock that its caller holds. -/
theorem dirlink_dot_waits :
    ∃ s, Machine.run (step tinyDisk noDriver) ⟨emptyVolume, none⟩
        [.ialloc tDir, .ilock 0, .dirlink 0 (shortName 46) 1] = some s ∧ Held 1 0 s.vol ∧
      (∃ r v', dirlookup tinyDisk noDriver 0 (shortName 46) s.vol = (.ok (some r), v')) ∧
      (∃ v', dirlink tinyDisk noDriver 0 (shortName 46) 2 s.vol = (.error .sleeping, v')) ∧
      ¬ DirlinkFails tinyDisk noDriver {0} 1 0 (shortName 46) 2 s.vol := by
  obtain ⟨s, hs, hlocked, htype, hinum, hlookup, hlock⟩ : ∃ s, Machine.run
      (step tinyDisk noDriver) ⟨emptyVolume, none⟩
        [.ialloc tDir, .ilock 0, .dirlink 0 (shortName 46) 1] = some s ∧
      (s.vol.inode 0).locked = true ∧ (s.vol.inode 0).type = tDir ∧ (s.vol.inode 0).inum = 1 ∧
      (dirlookup tinyDisk noDriver 0 (shortName 46) s.vol).1.toOption = some (some (0, 0)) ∧
      ((dirlookup tinyDisk noDriver 0 (shortName 46) s.vol).2.inode 0).locked = true := by
    decide +kernel
  obtain ⟨v', hfound⟩ := ok_of_toOption _ hlookup
  rw [hfound] at hlock
  have hlink : dirlink tinyDisk noDriver 0 (shortName 46) 2 s.vol = (.error .sleeping, v') := by
    rw [dirlink, bind_of_ok hfound]
    exact bind_of_error (iput_sleeps hlock)
  refine ⟨s, hs, ⟨hinum, hlocked, htype⟩, ⟨_, v', hfound⟩, ⟨v', hlink⟩, ?_⟩
  rintro (⟨v'', hfails⟩ | ⟨ip, off, v₁, hfound', -, ⟨v₂, hwait⟩, -⟩)
  · cases hlink.symm.trans hfails
  · cases hfound.symm.trans hfound'
    exact Bool.noConfusion ((hwait.locked 0 (mem_singleton_self 0)).symm.trans hwait.free)

end Xv6.FileSystem
