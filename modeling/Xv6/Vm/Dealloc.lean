import Xv6.Vm.Growth

/-!
# Skipping absent tables

`deallocuvm` goes on at the next 4 MB when a table is absent. `deallocEach` is the loop without
that step: it visits the pages of the range one by one. Both do the same, on any memory and
whatever they stop at. With the frames in order they return, the frames of the pages that were
present are given back, and nothing but the entries of these pages changes.
-/

namespace Xv6.Vm

open Routine PageTable BitVec

section Plain

variable (lk : Link)

/-- The loop of `deallocuvm`, page by page. -/
def deallocEach (pgdir : ℕ) (oldsz : BitVec 32) : ℕ → BitVec 32 → VmM Unit
  | 0, a => if a < oldsz then stop .endless else pure ()
  | n + 1, a =>
    if a < oldsz then do
      match ← walkpgdir pgdir a false with
      | none => deallocEach pgdir oldsz n (a + 4096)
      | some (t, j) => do
          let pte ← readPte t j
          if present pte = true then do
            if pteFrame pte = 0 then
              stop .kfree
            else do
              kfree lk (pteFrame pte)
              writePte t j 0
              deallocEach pgdir oldsz n (a + 4096)
          else
            deallocEach pgdir oldsz n (a + 4096)
    else
      pure ()

def deallocPlain (pgdir : ℕ) (oldsz newsz : BitVec 32) : VmM (BitVec 32) :=
  if oldsz ≤ newsz then
    pure oldsz
  else do
    deallocEach lk pgdir oldsz (oldsz.toNat / pgSize + 1) (pgRoundUp newsz)
    pure newsz

variable {lk} {d k : ℕ} {oldsz newsz a : BitVec 32}

theorem deallocLoop_of_le (ha : ¬ a < oldsz) (n : ℕ) : deallocLoop lk d oldsz n a = pure () := by
  cases n <;> rw [deallocLoop, if_neg ha]

theorem deallocEach_of_le (ha : ¬ a < oldsz) (n : ℕ) : deallocEach lk d oldsz n a = pure () := by
  cases n <;> rw [deallocEach, if_neg ha]

theorem deallocLoop_absent {m : Mem} (ha : a < oldsz) (ht : tableAt m d (pdx a) = none) (n : ℕ) :
    deallocLoop lk d oldsz (n + 1) a m = deallocLoop lk d oldsz n (pgAddr (pdx a + 1)) m := by
  rw [deallocLoop, if_pos ha, bind_of_ok (walkpgdir_look d a m), ht, sub_add_cancel]
  rfl

/-- The two loops agree from any page on, with any number of rounds that is enough. By
induction on the rounds of the second: where a table is absent the first has already gone on
to the next one, and comes to the same place from the next page of the table. -/
theorem deallocLoop_eq_each (hsz : oldsz.toNat ≤ 2 ^ 31) (n' : ℕ) (ha : a.toNat = 4096 * k) {n : ℕ}
    (hn : oldsz.toNat ≤ 4096 * (k + n)) (hn' : oldsz.toNat ≤ 4096 * (k + n')) :
    deallocLoop lk d oldsz n a = deallocEach lk d oldsz n' a := by
  induction n' generalizing a k n with
  | zero =>
    have hend : ¬ a < oldsz := by
      rw [lt_def]
      omega
    rw [deallocLoop_of_le hend, deallocEach_of_le hend]
  | succ n' ih =>
    by_cases hlt : a < oldsz
    swap
    · rw [deallocLoop_of_le hlt, deallocEach_of_le hlt]
    have hnat := lt_def.1 hlt
    obtain ⟨n, rfl⟩ : ∃ n₀, n = n₀ + 1 := Nat.exists_eq_add_one.2 (by omega)
    have hnext : (a + 4096).toNat = 4096 * (k + 1) := by
      rw [toNat_add_page (by omega)]
      omega
    have hrest : deallocLoop lk d oldsz n (a + 4096) = deallocEach lk d oldsz n' (a + 4096) :=
      ih hnext (by omega) (by omega)
    have hdir : pdx a = dirIdx k := by rw [pdx_eq, ha, Nat.mul_div_cancel_left k (by decide)]
    funext m
    cases ht : tableAt m d (pdx a) with
    | some t =>
      rw [deallocLoop, deallocEach, if_pos hlt, if_pos hlt, bind_of_ok (walkpgdir_look d a m),
        bind_of_ok (walkpgdir_look d a m), ht, hrest]
      rfl
    | none =>
      have hplain : deallocEach lk d oldsz (n' + 1) a m =
          deallocEach lk d oldsz n' (a + 4096) m := by
        rw [deallocEach, if_pos hlt, bind_of_ok (walkpgdir_look d a m), ht]
        rfl
      have hjump : (pgAddr (pdx a + 1)).toNat = 4096 * ((k / 1024 + 1) * 1024) := by
        rw [hdir]
        exact toNat_pgAddr (by omega)
      rw [deallocLoop_absent hlt ht, hplain]
      by_cases hboundary : (k + 1) % 1024 = 0
      · have hsame : pgAddr (pdx a + 1) = a + 4096 := eq_of_toNat_eq (by omega)
        rw [hsame, hrest]
      · -- the next page has the same table, which is absent
        have hdir' : pdx (a + 4096) = pdx a := by
          rw [hdir, pdx_eq, hnext, Nat.mul_div_cancel_left _ (by decide)]
          exact Fin.ext (show (k + 1) / 1024 % 1024 = k / 1024 % 1024 by omega)
        by_cases hlt' : a + 4096 < oldsz
        · rw [← ih hnext (n := n + 1) (by omega) (by omega),
            deallocLoop_absent hlt' ((congrArg (tableAt m d) hdir').trans ht), hdir']
        · have hend : ¬ pgAddr (pdx a + 1) < oldsz := by
            rw [lt_def] at hlt' ⊢
            omega
          rw [deallocLoop_of_le hend, deallocEach_of_le hlt']

theorem deallocuvm_eq_plain (hsz : oldsz ≤ kernBase) :
    deallocuvm lk d oldsz newsz = deallocPlain lk d oldsz newsz := by
  have hsz' : oldsz.toNat ≤ 2 ^ 31 := BitVec.le_def.1 hsz
  rw [deallocuvm, deallocPlain]
  split_ifs with hle
  · rfl
  · have hlt := BitVec.lt_def.1 (BitVec.not_le.1 hle)
    rw [deallocLoop_eq_each hsz' _ (toNat_pgRoundUp (by omega)) (by rw [pgSize]; omega)]
    rw [pgSize]
    omega

end Plain

section Frames

variable {H O : Type} {lk : Link} {others : O → Option ℕ} {dirs : H → Option ℕ}
  {loose : Set ℕ} {m m' : Mem} {h : H} {d lo hi : ℕ}

variable (hc : Cleared lk others dirs loose h d lo hi m m')
include hc

theorem Cleared.same_of_ne {h' : H} {d' : ℕ} (hne : h' ≠ h) (hd' : dirs h' = some d') (k : ℕ) :
    pteAt m' d' k = pteAt m d' k := by
  refine (hc.moves.same (fun q hq hT => hne ?_) hd').2.2 k
  rcases hT with hT | ⟨_, -, -, rfl⟩
  · exact Option.some.inj (hq.2.symm.trans hT.2)
  · exact absurd hq (Place.page_notMem_nodes _ _ _ _)

theorem Cleared.owner_iff (hhi : hi ≤ 2 ^ 19) (hd : dirs h = some d) {q : Spot H O} {f : ℕ} :
    owner m' dirs others q = some f ↔
      owner m dirs others q = some f ∧ q ∉ (span h lo hi : Set (Spot H O)) := by
  have hheld : Place.nodes h ∪ span h lo hi ⊆ (Place.held h : Set (Spot H O)) := by
    rintro r (hr | ⟨_, -, -, rfl⟩)
    · exact hr.2
    · rfl
  by_cases hq : q ∈ (Place.held h : Set (Spot H O))
  · cases q with
    | dir h' =>
      refine ⟨fun hf => ⟨hf, ?_⟩, And.left⟩
      rintro ⟨_, -, -, heq⟩
      cases heq
    | table h' i =>
      cases hq
      rw [owner_table hd, owner_table hd, hc.table]
      refine ⟨fun hf => ⟨hf, ?_⟩, And.left⟩
      rintro ⟨_, -, -, heq⟩
      cases heq
    | page h' i j =>
      cases hq
      obtain ⟨k, hk, rfl, rfl⟩ := exists_idx i j
      rw [owner_page hd, owner_page hd]
      by_cases hin : lo ≤ k ∧ k < hi
      · rw [hc.gone k hin.1 hin.2, leaf_of_absent k (present_unmapped _)]
        exact ⟨fun hf => absurd hf (by simp), fun hf => absurd ⟨k, hin.1, hin.2, rfl⟩ hf.2⟩
      · rw [hc.other k hk (by omega)]
        refine ⟨fun hf => ⟨hf, ?_⟩, And.left⟩
        rintro ⟨k', hlo, hhi', heq⟩
        injection heq with _ hdir htab
        obtain rfl := eq_of_idx hk (by omega) hdir htab
        exact hin ⟨hlo, hhi'⟩
    | other o => cases hq
  · rw [hc.moves.owner_eq hheld (fun _ _ => rfl) hq]
    exact ⟨fun hf => ⟨hf, fun hin => hq (hheld (.inr hin))⟩, And.left⟩

/-- The frames given back are those of the pages of the range. -/
theorem Cleared.mem_freelist (hf : Frames lk dirs others loose m) (hhi : hi ≤ 2 ^ 19)
    (hd : dirs h = some d) (f : ℕ) :
    f ∈ m'.freelist ↔ f ∈ m.freelist ∨ ∃ k, lo ≤ k ∧ k < hi ∧
      present (pteAt m d k) = true ∧ pteFrame (pteAt m d k) = f := by
  rw [hc.moves.frames.mem_freelist, hf.mem_freelist]
  simp only [ne_eq, hc.owner_iff hhi hd]
  constructor
  · rintro ⟨hmanaged, hloose, hno⟩
    by_cases hown : ∃ q, owner m dirs others q = some f
    · obtain ⟨q, hq⟩ := hown
      obtain ⟨k, hlo, hk, rfl⟩ := by_contra fun hout => hno q ⟨hq, hout⟩
      rw [owner_page hd, leaf_user (by omega), Option.ite_none_right_eq_some] at hq
      exact .inr ⟨k, hlo, hk, hq.1, Option.some.inj hq.2⟩
    · exact .inl ⟨hmanaged, hloose, fun q hq => hown ⟨q, hq⟩⟩
  · rintro (⟨hmanaged, hloose, hno⟩ | ⟨k, hlo, hk, hp, rfl⟩)
    · exact ⟨hmanaged, hloose, fun q hq => hno q hq.1⟩
    · have hown : owner m dirs others (.page h (dirIdx k) (tabIdx k)) = _ :=
        owner_of_present hd (by omega) hp
      refine ⟨hf.managed_of_owner hown, fun hloose => hf.owned.unowned _ hloose _ hown, ?_⟩
      rintro q ⟨hq, hout⟩
      exact hout ⟨k, hlo, hk, hf.owned.inj _ _ _ hq hown⟩

end Frames

/-- `deallocuvm` gives the same result as the loop over every page, on any memory. On a
directory whose frames are in order it returns, the entries of the pages that were present in
the range are cleared and their frames are given back, each once, and no other entry of any
directory changes. -/
theorem deallocuvm_exact {H O : Type} [DecidableEq H] (lk : Link) (dirs : H → Option ℕ)
    (others : O → Option ℕ) (d : ℕ) {oldsz newsz : BitVec 32} (hsz : oldsz ≤ kernBase)
    (hlt : newsz < oldsz) :
    (∀ m, deallocuvm lk d oldsz newsz m = deallocPlain lk d oldsz newsz m) ∧
      ∀ loose m h, Frames lk dirs others loose m → dirs h = some d →
        wp (deallocuvm lk d oldsz newsz) (fun r m' => r = newsz ∧ Frames lk dirs others loose m' ∧
          (∀ i, tableAt m' d i = tableAt m d i) ∧
          (∀ k < 2 ^ 20, pteAt m' d k =
            if pagesOf newsz ≤ k ∧ k < pagesOf oldsz ∧ present (pteAt m d k) = true then 0
            else pteAt m d k) ∧
          (∀ h' d', h' ≠ h → dirs h' = some d' → ∀ k, pteAt m' d' k = pteAt m d' k) ∧
          m'.freelist.Nodup ∧
          (∀ f, f ∈ m'.freelist ↔ f ∈ m.freelist ∨ ∃! k, pagesOf newsz ≤ k ∧ k < pagesOf oldsz ∧
            present (pteAt m d k) = true ∧ pteFrame (pteAt m d k) = f))
          (fun _ _ => False) m := by
  refine ⟨fun m => by rw [deallocuvm_eq_plain hsz], fun loose m h hf hd => ?_⟩
  have hpages : pagesOf oldsz ≤ 2 ^ 19 := pagesOf_le (BitVec.le_def.1 hsz)
  refine wp_mono_ok (deallocuvm_spec hf hd (BitVec.le_def.1 hsz)) ?_
  rintro r m' (⟨hle, -, -⟩ | ⟨-, rfl, hc⟩)
  · exact absurd hlt (BitVec.not_lt.2 hle)
  refine ⟨rfl, hc.moves.frames, hc.table, fun k hk => ?_,
    fun h' d' hne hd' => hc.same_of_ne hne hd', hc.moves.frames.nodup, fun f => ?_⟩
  · by_cases hin : pagesOf r ≤ k ∧ k < pagesOf oldsz
    · rw [hc.gone k hin.1 hin.2, unmapped]
      simp only [hin, true_and]
    · rw [hc.other k hk (by omega), if_neg fun hall => hin ⟨hall.1, hall.2.1⟩]
  · rw [hc.mem_freelist hf hpages hd]
    refine or_congr_right ⟨?_, ExistsUnique.exists⟩
    rintro ⟨k, hlo, hk, hp, hframe⟩
    refine ⟨k, ⟨hlo, hk, hp, hframe⟩, ?_⟩
    -- no two pages of a directory have one frame
    rintro k' ⟨hlo', hk', hp', hframe'⟩
    have hown : owner m dirs others (.page h (dirIdx k) (tabIdx k)) = _ :=
      owner_of_present hd (by omega) hp
    have hown' : owner m dirs others (.page h (dirIdx k') (tabIdx k')) = _ :=
      owner_of_present hd (by omega) hp'
    rw [hframe] at hown
    rw [hframe'] at hown'
    injection hf.owned.inj _ _ _ hown' hown with _ hdir htab
    exact eq_of_idx (by omega) (by omega) hdir htab

/-- Of two pages the second goes, and with it everything up to `KERNBASE`. -/
theorem deallocuvm_exact_second : ∃ d m m',
    Frames smallLink (Function.update (fun _ => none) () (some d)) (fun _ : Unit => none) ∅ m ∧
      deallocuvm smallLink d kernBase 4096 m = (.ok 4096, m') ∧
      deallocPlain smallLink d kernBase 4096 m = (.ok 4096, m') ∧
      (pteFrame (pteAt m d 1) ∉ m.freelist ∧ pteFrame (pteAt m d 1) ∈ m'.freelist) ∧
      pteAt m' d 1 = 0 ∧ present (pteAt m' d 0) = true := by
  obtain ⟨d, m, hf, hall, habove, -⟩ := exists_pages (H := Unit) (O := Unit) ()
  have hd := Function.update_self () (some d) fun _ : Unit => none
  obtain ⟨hplain, hclear⟩ := deallocuvm_exact smallLink
    (Function.update (fun _ => none) () (some d)) (fun _ : Unit => none) d
    (BitVec.le_refl kernBase) (show 4096 < kernBase by decide)
  obtain ⟨r, m', hrun, rfl, -, -, hpte, -, -, hfree⟩ :=
    wp_returns (hclear ∅ m () hf hd) fun _ _ => id
  have hone : present (pteAt m d 1) = true := hall 1 (by decide)
  have hown : owner m _ (fun _ : Unit => none) _ = _ :=
    owner_of_present hd (by decide : 1 < 2 ^ 19) hone
  refine ⟨d, m, m', hf, hrun, (hplain m).symm.trans hrun, ⟨fun hmem => ?_, (hfree _).2 (.inr
    ⟨1, ⟨by decide, by decide, hone, rfl⟩, ?_⟩)⟩, ?_, ?_⟩
  · exact (hf.mem_freelist.1 hmem).2.2 _ hown
  · rintro k ⟨hlo, hhi, hp, -⟩
    have hlo : 1 ≤ k := hlo
    by_contra hne
    rw [habove k (by omega) hhi] at hp
    cases hp
  · exact (hpte 1 (by decide)).trans (if_pos ⟨by decide, by decide, hone⟩)
  · rw [hpte 0 (by decide), if_neg fun hin => absurd hin.1 (by decide)]
    exact hall 0 (by decide)

end Xv6.Vm
