import Mathlib.Data.Fintype.Card
import Xv6.Library.PageTable
import Xv6.Vm.Model

/-!
# Addresses and entries

The arithmetic of addresses and page table entries, in numbers of pages and frames, and the
two-level tables of the source as a `PageTable.Scheme`. An entry of a table owns its page in
the user half of the address space only; the kernel half of every address space shows the same
physical memory. `pteAt m d k` is the entry for page number `k` of the directory in frame `d`.
-/

namespace Xv6.Vm

open PageTable BitVec Nat

variable {m : Mem}

theorem getLsbD_pageMask (i : ℕ) : (0xFFF : BitVec 32).getLsbD i = decide (i < 12) := by
  by_cases hi : i < 32
  · have hbits : ∀ i < 32, (0xFFF : BitVec 32).getLsbD i = decide (i < 12) := by decide
    exact hbits i hi
  · have hlarge : ¬ i < 12 := by omega
    rw [getLsbD_of_ge _ _ (by omega), decide_eq_false hlarge]

theorem pgRoundDown_eq_shift (a : BitVec 32) : pgRoundDown a = a >>> 12 <<< 12 := by
  apply eq_of_getLsbD_eq
  simp only [pgRoundDown, getLsbD_and, getLsbD_not, getLsbD_pageMask,
    getLsbD_shiftLeft, getLsbD_ushiftRight]
  grind

theorem toNat_pgRoundDown (a : BitVec 32) : (pgRoundDown a).toNat = a.toNat / 4096 * 4096 := by
  rw [pgRoundDown_eq_shift, toNat_shiftLeft, toNat_ushiftRight, Nat.shiftLeft_eq,
    Nat.shiftRight_eq_div_pow]
  omega

def pagesOf (sz : BitVec 32) : ℕ := (sz.toNat + 4095) / 4096

theorem toNat_pgRoundUp {sz : BitVec 32} (h : sz.toNat ≤ 2 ^ 31) :
    (pgRoundUp sz).toNat = 4096 * pagesOf sz := by
  have hmask : (0xFFF : BitVec 32).toNat = 4095 := rfl
  have hsum : (sz + 0xFFF).toNat = sz.toNat + 4095 := by
    rw [toNat_add, hmask]
    omega
  have heq : pgRoundUp sz = pgRoundDown (sz + 0xFFF) := rfl
  rw [heq, toNat_pgRoundDown, hsum, pagesOf]
  omega

theorem toNat_add_page {a : BitVec 32} (h : a.toNat + 4096 < 2 ^ 32) :
    (a + 4096).toNat = a.toNat + 4096 := by
  have hpage : (4096 : BitVec 32).toNat = 4096 := rfl
  rw [toNat_add, hpage]
  omega

theorem toNat_kernBase : kernBase.toNat = 2 ^ 31 := rfl

theorem toNat_frameAddr {f : ℕ} (h : f < 2 ^ 20) : (frameAddr f).toNat = 4096 * f := by
  rw [frameAddr, toNat_ofNat, pgSize]
  omega

section Entries

variable {pa perm pte : BitVec 32}

theorem present_zero : present 0 = false := by decide

theorem present_map (pa perm : BitVec 32) : present (pa ||| perm ||| pteP) = true := by
  have hbit : pteP.getLsbD 0 = true := by decide
  rw [present, getLsbD_or, hbit, Bool.or_true]

theorem pteFrame_or (pa : BitVec 32) (hperm : perm.toNat < 4096) :
    pteFrame (pa ||| perm) = pteFrame pa := by
  have hzero : perm.toNat >>> 12 = 0 := by omega
  have hshift : (pa.toNat ||| perm.toNat) >>> 12 = pa.toNat >>> 12 := by
    rw [Nat.shiftRight_or_distrib, hzero, Nat.or_zero]
  rw [Nat.shiftRight_eq_div_pow, Nat.shiftRight_eq_div_pow] at hshift
  rw [pteFrame, toNat_or]
  exact hshift

theorem pteFrame_map (pa : BitVec 32) (hperm : perm.toNat < 4096) :
    pteFrame (pa ||| perm ||| pteP) = pteFrame pa := by
  rw [pteFrame_or _ (by decide), pteFrame_or _ hperm]

theorem pteFrame_frameAddr {f : ℕ} (h : f < 2 ^ 20) : pteFrame (frameAddr f) = f := by
  rw [pteFrame, toNat_frameAddr h, pgSize]
  omega

theorem user_map (hpa : pa.toNat % 4096 = 0) : user (pa ||| perm ||| pteP) = user perm := by
  have hp : pteP.getLsbD 2 = false := by decide
  have hpa2 : pa.getLsbD 2 = false := by
    rw [BitVec.getLsbD, testBit_eq_decide_div_mod_eq]
    exact decide_eq_false (by omega)
  simp only [user, getLsbD_or, hp, hpa2, Bool.false_or, Bool.or_false]

theorem toNat_pteFlags_lt (pte : BitVec 32) : (pteFlags pte).toNat < 4096 := by
  have hle : pte.toNat &&& 0xFFF ≤ 0xFFF := and_le_right
  have hmask : (0xFFF : BitVec 32).toNat = 0xFFF := rfl
  rw [pteFlags, toNat_and, hmask]
  omega

theorem present_clear (pte : BitVec 32) : present (pte &&& ~~~pteU) = present pte := by
  have hbit : (~~~pteU).getLsbD 0 = true := by decide
  rw [present, getLsbD_and, hbit, Bool.and_true, present]

theorem user_clear (pte : BitVec 32) : user (pte &&& ~~~pteU) = false := by
  have hbit : (~~~pteU).getLsbD 2 = false := by decide
  rw [user, getLsbD_and, hbit, Bool.and_false]

theorem pteFrame_clear (pte : BitVec 32) : pteFrame (pte &&& ~~~pteU) = pteFrame pte := by
  have hmask : (~~~pteU).toNat >>> 12 = 0xFFFFF := by decide
  have hsmall : pte.toNat >>> 12 < 2 ^ 20 := by omega
  have hshift : (pte.toNat &&& (~~~pteU).toNat) >>> 12 = pte.toNat >>> 12 := by
    rw [shiftRight_and_distrib, hmask]
    exact and_two_pow_sub_one_of_lt_two_pow hsmall
  rw [shiftRight_eq_div_pow, shiftRight_eq_div_pow] at hshift
  rw [pteFrame, toNat_and]
  exact hshift

end Entries

def scheme : Scheme (ByteBlock pgSize) ℕ (Fin nPdEntries) (BitVec 32) where
  read b i := b.u32At (4 * i)
  next e := if present e = true then some (pteFrame e) else none
  leaf i _ e := if i.val < 512 ∧ present e = true then some (pteFrame e) else none
  zero := 0
  next_zero := rfl
  leaf_zero _ _ := if_neg fun h => Bool.false_ne_true h.2

def dirIdx (k : ℕ) : Fin nPdEntries := ⟨k / 1024 % 1024, Nat.mod_lt _ (by decide)⟩

def tabIdx (k : ℕ) : Fin nPdEntries := ⟨k % 1024, Nat.mod_lt _ (by decide)⟩

theorem pdx_eq (va : BitVec 32) : pdx va = dirIdx (va.toNat / 4096) := by
  apply Fin.ext
  show va.toNat / 2 ^ 22 % 1024 = va.toNat / 4096 / 1024 % 1024
  omega

theorem ptx_eq (va : BitVec 32) : ptx va = tabIdx (va.toNat / 4096) := rfl

theorem eq_of_idx {k k' : ℕ} (hk : k < 2 ^ 20) (hk' : k' < 2 ^ 20) (hdir : dirIdx k = dirIdx k')
    (htab : tabIdx k = tabIdx k') : k = k' := by
  have hdir' : k / 1024 % 1024 = k' / 1024 % 1024 := congrArg Fin.val hdir
  have htab' : k % 1024 = k' % 1024 := congrArg Fin.val htab
  omega

theorem exists_idx (i j : Fin nPdEntries) : ∃ k < 2 ^ 20, dirIdx k = i ∧ tabIdx k = j := by
  have hi : i.val < 1024 := i.isLt
  have hj : j.val < 1024 := j.isLt
  refine ⟨1024 * i + j, by omega, Fin.ext ?_, Fin.ext ?_⟩
  · show (1024 * i.val + j) / 1024 % 1024 = i
    omega
  · show (1024 * i.val + j) % 1024 = j
    omega

theorem dirIdx_lt {k : ℕ} (hk : k < 2 ^ 20) : (dirIdx k).val < 512 ↔ k < 2 ^ 19 := by
  show k / 1024 % 1024 < 512 ↔ k < 2 ^ 19
  omega

theorem leaf_user {k : ℕ} (hk : k < 2 ^ 19) (e : BitVec 32) :
    scheme.leaf (dirIdx k) (tabIdx k) e = if present e = true then some (pteFrame e) else none := by
  have hidx := (dirIdx_lt (lt_trans hk (by decide))).2 hk
  simp only [scheme, hidx, true_and]

theorem leaf_kernel {k : ℕ} (hk : 2 ^ 19 ≤ k) (hk' : k < 2 ^ 20) (e : BitVec 32) :
    scheme.leaf (dirIdx k) (tabIdx k) e = none := by
  have hidx := (dirIdx_lt hk').not.2 (not_lt.2 hk)
  simp only [scheme, hidx, false_and, if_false]

def tableAt (m : Mem) (d : ℕ) (i : Fin nPdEntries) : Option ℕ := table scheme m.page d i

/-- The entry for a page number in a directory. -/
def pteAt (m : Mem) (d k : ℕ) : BitVec 32 := entry scheme m.page d (dirIdx k) (tabIdx k)

theorem tableAt_eq (m : Mem) (d : ℕ) (i : Fin nPdEntries) :
    tableAt m d i = if present (m.pte d i) = true then some (pteFrame (m.pte d i)) else none := rfl

theorem pteAt_of_table {d k t : ℕ} (h : tableAt m d (dirIdx k) = some t) :
    pteAt m d k = m.pte t (tabIdx k) := entry_of_table h

theorem pteAt_of_none {d k : ℕ} (h : tableAt m d (dirIdx k) = none) :
    pteAt m d k = 0 := entry_of_none h

theorem tableAt_of_present {d k : ℕ} (h : present (pteAt m d k) = true) :
    ∃ t, tableAt m d (dirIdx k) = some t := by
  cases ht : tableAt m d (dirIdx k) with
  | none =>
    rw [pteAt_of_none ht, present_zero] at h
    cases h
  | some t => exact ⟨t, rfl⟩

/-- The indices of a directory that have a table. -/
def tables (m : Mem) (d : ℕ) : Finset (Fin nPdEntries) :=
  Finset.univ.filter fun i => (tableAt m d i).isSome = true

theorem mem_tables {d : ℕ} {i : Fin nPdEntries} : i ∈ tables m d ↔ tableAt m d i ≠ none := by
  simp [tables, Option.isSome_iff_ne_none]

theorem read_setU32 (b : ByteBlock pgSize) (i j : Fin nPdEntries) (e : BitVec 32) :
    scheme.read (b.setU32 (4 * i) e) j = if j = i then e else scheme.read b j := by
  have hi : i.val < 1024 := i.isLt
  by_cases hij : j = i
  · rw [if_pos hij, hij]
    exact ByteBlock.u32At_setU32 b (4 * i) e (show 4 * i.val + 4 ≤ 4096 by omega)
  · rw [if_neg hij]
    exact ByteBlock.u32At_setU32_of_ne b e fun h => hij (Fin.ext h.symm)

theorem read_fill_zero (i : Fin nPdEntries) :
    scheme.read (fun _ => 0 : ByteBlock pgSize) i = 0 := by
  have hbyte : ∀ k, ByteBlock.byteAt (fun _ => 0 : ByteBlock pgSize) k = 0 := by
    intro k
    simp only [ByteBlock.byteAt, dite_eq_ite, ite_self]
  show ByteBlock.u32At (fun _ => 0 : ByteBlock pgSize) (4 * i) = 0
  simp only [ByteBlock.u32At, hbyte]
  rfl

end Xv6.Vm
