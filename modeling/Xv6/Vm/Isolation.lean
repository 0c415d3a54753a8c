import Xv6.Vm.Contents
import Xv6.Vm.Growth

/-!
# Copies are faithful and isolated

The frames of the pages that `copyuvm` makes belong to no other place. So a process sees in its
user half what its own stores put there, whatever stores the other processes make in between,
and this holds for any number of processes whose directories own their frames.
-/

namespace Xv6.Vm

open Routine PageTable Function BitVec Finset

variable {H O : Type} {lk : Link} {others : O → Option ℕ} {dirs : H → Option ℕ} {loose : Set ℕ}

section Stores

def writable (pte : BitVec 32) : Bool := pte.getLsbD 1

def view (m : Mem) (d k : ℕ) : Option (ByteBlock pgSize) :=
  if present (pteAt m d k) = true then some (m.page (pteFrame (pteAt m d k))) else none

/-- A process stores a byte in its user half. The processor goes through the directory, and
lets it only where the entry is writable for users. -/
def userStore (d : ℕ) (va : BitVec 32) (byte : BitVec 8) (m : Mem) : Mem :=
  let pte := pteAt m d (va.toNat / pgSize)
  if va < kernBase ∧ present pte = true ∧ user pte = true ∧ writable pte = true then
    m.storeBytes (pteFrame pte) (va.toNat % pgSize) [byte]
  else
    m

structure Store (H : Type) where
  holder : H
  va : BitVec 32
  byte : BitVec 8

def stores {H : Type} (dirs : H → Option ℕ) : List (Store H) → Mem → Mem
  | [], m => m
  | w :: ws, m => stores dirs ws (match dirs w.holder with
      | none => m
      | some d => userStore d w.va w.byte m)

/-- Two memories that show the same pages through a directory. -/
def Alike (d : ℕ) (m n : Mem) : Prop :=
  ∀ k < 2 ^ 19, pteAt m d k = pteAt n d k ∧ view m d k = view n d k

variable {m n : Mem} {h h' : H} {d d' k : ℕ}

theorem view_of_absent (hp : present (pteAt m d k) = false) : view m d k = none :=
  if_neg (ne_true_of_eq_false hp)

theorem view_of_present (hp : present (pteAt m d k) = true) :
    view m d k = some (m.page (pteFrame (pteAt m d k))) := if_pos hp

theorem view_congr (hpte : pteAt m d k = pteAt n d k) (hpage : present (pteAt n d k) = true →
      m.page (pteFrame (pteAt n d k)) = n.page (pteFrame (pteAt n d k))) :
    view m d k = view n d k := by
  rw [view, view, hpte]
  split_ifs with hp
  · rw [hpage hp]
  · rfl

theorem Moves.view_eq {dirs' : H → Option ℕ} {T : Set (Spot H O)}
    (hmoves : Moves lk others T dirs dirs' loose m n) (hd : dirs h = some d) (hk : k < 2 ^ 19)
    (hT : .page h (dirIdx k) (tabIdx k) ∉ T) (hpte : pteAt n d k = pteAt m d k) :
    view n d k = view m d k := by
  refine view_congr hpte fun hp => ?_
  have howner : owner m dirs others (.page h (dirIdx k) (tabIdx k)) = _ :=
    owner_of_present hd hk hp
  exact (hmoves.keeps _ hT _ howner).2

theorem Alike.page_eq (halike : Alike d m n) (hk : k < 2 ^ 19) (hp : present (pteAt m d k) = true) :
    m.page (pteFrame (pteAt m d k)) = n.page (pteFrame (pteAt m d k)) := by
  obtain ⟨hpte, hview⟩ := halike k hk
  rw [view_of_present hp, view_of_present (hpte ▸ hp), ← hpte] at hview
  exact Option.some.inj hview

theorem Moves.userStore (hf : Frames lk dirs others loose m) (hd : dirs h = some d)
    (va : BitVec 32) (byte : BitVec 8) :
    Moves lk others (span h 0 (2 ^ 19)) dirs dirs loose m (userStore d va byte m) := by
  rw [Vm.userStore]
  split_ifs with hallowed
  · have hlow := lt_def.1 hallowed.1
    rw [toNat_kernBase] at hlow
    exact Moves.storeBytes hf hd (show va.toNat / 4096 < 2 ^ 19 by omega) hallowed.2.1 _ _
  · exact Moves.refl hf

theorem Moves.alike {m' : Mem} (hmoves : Moves lk others (span h 0 (2 ^ 19)) dirs dirs loose m m')
    (hne : h' ≠ h) (hd' : dirs h' = some d') : Alike d' m' m := by
  have hnode : ∀ q ∈ (Place.nodes h' : Set (Spot H O)),
      q ∉ (span h 0 (2 ^ 19) : Set (Spot H O)) := by
    rintro q hq ⟨k, -, -, rfl⟩
    exact Place.page_notMem_nodes h' h _ _ hq
  obtain ⟨-, -, hptes⟩ := hmoves.same hnode hd'
  refine fun k hk => ⟨hptes k, hmoves.view_eq hd' hk ?_ (hptes k)⟩
  rintro ⟨k', -, -, heq⟩
  injection heq with hholder
  exact hne hholder

/-- A store does the same to two memories that show the same pages. -/
theorem Alike.userStore (halike : Alike d m n) (hf : Frames lk dirs others loose m)
    (hf' : Frames lk dirs others loose n) (hd : dirs h = some d) (va : BitVec 32)
    (byte : BitVec 8) : Alike d (userStore d va byte m) (userStore d va byte n) := by
  have hsame : ∀ {m}, Frames lk dirs others loose m →
      ∀ k, pteAt (Vm.userStore d va byte m) d k = pteAt m d k := fun hf =>
    ((Moves.userStore hf hd va byte).same (span_disjoint_nodes h 0 (2 ^ 19)) hd).2.2
  intro k hk
  have hpte : pteAt (Vm.userStore d va byte m) d k = pteAt (Vm.userStore d va byte n) d k := by
    rw [hsame hf, hsame hf', (halike k hk).1]
  refine ⟨hpte, view_congr hpte ?_⟩
  rw [hsame hf', ← (halike k hk).1]
  intro hp
  have hold := halike.page_eq hk hp
  by_cases hlow : va < kernBase
  swap
  · rw [Vm.userStore, Vm.userStore, if_neg fun hall => hlow hall.1,
      if_neg fun hall => hlow hall.1, hold]
  have hnat := lt_def.1 hlow
  rw [toNat_kernBase] at hnat
  have hva : va.toNat / pgSize < 2 ^ 19 := by
    rw [pgSize]
    omega
  rw [Vm.userStore, Vm.userStore, ← (halike _ hva).1]
  split_ifs with hallowed
  · rw [Mem.storeBytes, Mem.storeBytes, ← halike.page_eq hva hallowed.2.1]
    by_cases heq : pteFrame (pteAt m d k) = pteFrame (pteAt m d (va.toNat / pgSize))
    · rw [heq, page_setPage_self, page_setPage_self]
    · simp only [Mem.setPage, update_of_ne heq]
      exact hold
  · exact hold

theorem Alike.trans {m' : Mem} (halike : Alike d m n) (halike' : Alike d n m') : Alike d m m' :=
  fun k hk => ⟨(halike k hk).1.trans (halike' k hk).1, (halike k hk).2.trans (halike' k hk).2⟩

/-- By induction on the stores: a process sees what its own stores alone would have left. -/
theorem stores_alike [DecidableEq H] (hd : dirs h = some d) (ws : List (Store H))
    (hf : Frames lk dirs others loose m) (hf' : Frames lk dirs others loose n)
    (halike : Alike d m n) :
    Alike d (stores dirs ws m) (stores dirs (ws.filter fun w => w.holder = h) n) := by
  induction ws generalizing m n with
  | nil => exact halike
  | cons w ws ih =>
    rw [stores, List.filter_cons]
    cases hw : dirs w.holder with
    | none =>
      have hne : w.holder ≠ h := by
        rintro rfl
        simp [hw] at hd
      simp only [hne, decide_false, Bool.false_eq_true, if_false]
      exact ih hf hf' halike
    | some d' =>
      have hmoves := Moves.userStore hf hw w.va w.byte
      by_cases hown : w.holder = h
      · obtain rfl : d' = d := Option.some.inj (hw.symm.trans (hown ▸ hd))
        have hmoves' := Moves.userStore hf' hw w.va w.byte
        simp only [hown, decide_true, if_true, stores, hd]
        exact ih hmoves.frames hmoves'.frames (halike.userStore hf hf' hd _ _)
      · simp only [hown, decide_false, Bool.false_eq_true, if_false]
        exact ih hmoves.frames hf' ((hmoves.alike (Ne.symm hown) hd).trans halike)

end Stores

section Copies

variable [DecidableEq H] {m m' : Mem} {h h₀ : H} {pgdir d k n : ℕ} {sz : BitVec 32}

theorem pteFlags_map (f : ℕ) {pte : BitVec 32} (hp : present pte = true) :
    pteFlags (frameAddr f ||| pteFlags pte ||| pteP) = pteFlags pte := by
  have haddr : ∀ i < 12, (frameAddr f).getLsbD i = false := by
    intro i hi
    have hshift : frameAddr f = BitVec.ofNat 32 f <<< 12 := by
      apply eq_of_toNat_eq
      rw [frameAddr, toNat_shiftLeft, toNat_ofNat, toNat_ofNat, Nat.shiftLeft_eq, pgSize]
      omega
    rw [hshift, getLsbD_shiftLeft]
    simp [hi]
  have hbit : ∀ i < 12, i ≠ 0 → pteP.getLsbD i = false := by decide
  apply eq_of_getLsbD_eq
  intro i _
  simp only [pteFlags, getLsbD_and, getLsbD_or, getLsbD_pageMask]
  by_cases hi : i < 12
  · by_cases hzero : i = 0
    · subst hzero
      have hone : pte.getLsbD 0 = true := hp
      rw [hone, haddr 0 hi, decide_eq_true hi]
      rfl
    · simp [hi, haddr i hi, hbit i hi hzero]
  · simp [hi]

omit [DecidableEq H] in
theorem Frames.few_pages (hf : Frames lk dirs others loose m) (hd : dirs h = some d)
    (hn : n ≤ 2 ^ 19) (hall : ∀ k < n, present (pteAt m d k) = true) : n ≤ 0xE000 := by
  have howner : ∀ k < n, owner m dirs others (.page h (dirIdx k) (tabIdx k)) =
      some (pteFrame (pteAt m d k)) := fun k hk => owner_of_present hd (by omega) (hall k hk)
  have hcard := card_le_card_of_injOn (s := Finset.range n) (t := Finset.range 0xE000)
    (fun k => pteFrame (pteAt m d k)) ?_ ?_
  · rwa [card_range, card_range] at hcard
  · intro k hk
    have hmanaged := hf.managed_of_owner (howner k (mem_range.1 hk))
    exact mem_coe.2 (mem_range.2 ((lk.managed_iff _).1 hmanaged).2)
  · intro k hk k' hk' heq
    have hk := mem_range.1 (mem_coe.1 hk)
    have hk' := mem_range.1 (mem_coe.1 hk')
    have heq : pteFrame (pteAt m d k) = pteFrame (pteAt m d k') := heq
    have hplace := hf.owned.inj _ _ _ (howner k hk) (heq ▸ howner k' hk')
    injection hplace with _ hdir htab
    exact eq_of_idx (by omega) (by omega) hdir htab

/-- What a successful `copyuvm` leaves in the new directory `d` of the holder `h`. -/
structure FaithfulCopy (dirs : H → Option ℕ) (others : O → Option ℕ) (h : H) (pgdir d : ℕ)
    (sz : BitVec 32) (m m' : Mem) : Prop where
  present : ∀ k < pagesOf sz, present (pteAt m' d k) = true
  flags : ∀ k < pagesOf sz, pteFlags (pteAt m' d k) = pteFlags (pteAt m pgdir k)
  bytes : ∀ k < pagesOf sz, view m' d k = view m pgdir k
  unshared : ∀ k < pagesOf sz, ∀ q : Spot H O,
    owner m' dirs others q = some (pteFrame (pteAt m' d k)) → q = .page h (dirIdx k) (tabIdx k)
  above : ∀ k, pagesOf sz ≤ k → k < 2 ^ 19 → Vm.present (pteAt m' d k) = false
  directory : m'.page pgdir = m.page pgdir
  entries : ∀ k, pteAt m' pgdir k = pteAt m pgdir k
  parent : ∀ k < 2 ^ 19, view m' pgdir k = view m pgdir k

theorem Copied.faithful
    (hc : Copied lk others dirs (update dirs h (some d)) loose h pgdir d (pagesOf sz) m m')
    (hnone : dirs h = none) (hd₀ : dirs h₀ = some pgdir)
    (hsz : sz.toNat ≤ 2 ^ 31) (hall : ∀ k < pagesOf sz, present (pteAt m pgdir k) = true) :
    FaithfulCopy (update dirs h (some d)) others h pgdir d sz m m' := by
  have hpages := pagesOf_le hsz
  have hd : update dirs h (some d) h = some d := update_self ..
  have hne : h₀ ≠ h := by
    rintro rfl
    simp [hnone] at hd₀
  have hapart : ∀ q : Spot H O, q.holder = some h₀ → q ∉ Place.held h :=
    fun q hq hq' => hne (Option.some.inj (hq.symm.trans hq'))
  obtain ⟨-, -, hptes⟩ := hc.moves.same (fun q hq => hapart q hq.2) hd₀
  have hpresent : ∀ k < pagesOf sz, Vm.present (pteAt m' d k) = true := by
    intro k hk
    obtain ⟨f, -, hpte, -⟩ := hc.page k hk
    rw [hpte, present_map]
  refine ⟨hpresent, fun k hk => ?_, fun k hk => ?_, fun k hk q hq => ?_, fun k hlo hk => ?_,
    ?_, hptes, fun k hk => ?_⟩
  · obtain ⟨f, -, hpte, -⟩ := hc.page k hk
    rw [hpte, pteFlags_map f (hall k hk)]
  · obtain ⟨f, hf, hpte, hbytes⟩ := hc.page k hk
    have hframe : pteFrame (pteAt m' d k) = f := by
      rw [hpte, pteFrame_map _ (toNat_pteFlags_lt _), pteFrame_frameAddr hf]
    rw [view_of_present (hpresent k hk), view_of_present (hall k hk), hframe, hbytes]
  · exact hc.moves.frames.owned.inj q _ _ hq (owner_of_present hd (by omega) (hpresent k hk))
  · rw [hc.rest k hlo hk, present_zero]
  · have howner : owner m dirs others (.dir h₀) = some pgdir := hd₀
    exact (hc.moves.keeps _ (hapart _ rfl) pgdir howner).2
  · exact hc.moves.view_eq hd₀ hk (hapart _ rfl) (hptes k)

end Copies

/-- `copyuvm` on a directory whose pages below the size are present, whatever calls of `kalloc`
fail. On success the copy is faithful, and whatever stores the processes make afterwards, each
sees in its user half what its own stores alone would have left. On failure the same frames are
free as before. -/
theorem copyuvm_faithful {H O : Type} [DecidableEq H] {lk : Link} {dirs : H → Option ℕ}
    {others : O → Option ℕ} {loose : Set ℕ} {m : Mem} {h h₀ : H} {pgdir : ℕ} {sz : BitVec 32}
    (hf : Frames lk dirs others loose m) (hnone : dirs h = none) (hd₀ : dirs h₀ = some pgdir)
    (hall : ∀ k < pagesOf sz, present (pteAt m pgdir k) = true) :
    wp (copyuvm lk pgdir sz) (fun r m' => match r with
      | none => m'.freelist.Nodup ∧ ∀ f, f ∈ m'.freelist ↔ f ∈ m.freelist
      | some d => FaithfulCopy (update dirs h (some d)) others h pgdir d sz m m' ∧
          ∀ (ws : List (Store H)) (h' : H) (d' : ℕ), update dirs h (some d) h' = some d' →
            Alike d' (stores (update dirs h (some d)) ws m')
              (stores (update dirs h (some d)) (ws.filter fun w => w.holder = h') m'))
      (fun _ _ => False) m := by
  have hne : h₀ ≠ h := by
    rintro rfl
    simp [hnone] at hd₀
  have hsz : sz.toNat ≤ 2 ^ 31 := by
    -- otherwise more pages are present than there are frames
    by_contra hbig
    have hlarge : 2 ^ 19 ≤ pagesOf sz := by
      rw [pagesOf]
      omega
    have hfew := hf.few_pages hd₀ le_rfl fun k hk => hall k (by omega)
    exact absurd hfew (by decide)
  refine wp_mono (copyuvm_spec hf hnone hne hd₀ hsz) ?_ ?_
  · rintro (- | d) m' hpost
    · exact ⟨hpost.1.frames.nodup, fun f => hpost.1.freelist_iff hf subset_rfl hnone⟩
    · exact ⟨hpost.faithful hnone hd₀ hsz hall, fun ws h' d' hd' =>
        stores_alike hd' ws hpost.moves.frames hpost.moves.frames fun k _ => ⟨rfl, rfl⟩⟩
  · rintro e _ ⟨-, k, hk, habsent⟩
    simp [hall k hk] at habsent

theorem copyuvm_faithful_two : ∃ (pgdir d : ℕ) (m m' : Mem),
    copyuvm smallLink pgdir 8192 m = (.ok (some d), m') ∧ FaithfulCopy
        (update (update (fun _ => none) false (some pgdir)) true (some d))
        (fun _ : Unit => none) true pgdir d 8192 m m' := by
  obtain ⟨pgdir, m, hf, hall, -, hstock⟩ := exists_pages (O := Unit) false
  have hd₀ := update_self false (some pgdir) fun _ => none
  have hall : ∀ k < pagesOf 8192, present (pteAt m pgdir k) = true := hall
  have hsz : (8192 : BitVec 32).toNat ≤ 2 ^ 31 := by decide
  have hboth := wp_and (copyuvm_faithful (h := true) hf rfl hd₀ hall)
    (copyuvm_spec (h := true) hf rfl Bool.false_ne_true hd₀ hsz)
  obtain ⟨r, m', hrun, hpost⟩ := wp_returns hboth fun _ _ hstop => hstop.1
  cases r with
  | none =>
    have hshort : m.stock < 68 := hpost.2.2
    omega
  | some d => exact ⟨pgdir, d, m, m', hrun, hpost.1.1⟩

end Xv6.Vm
