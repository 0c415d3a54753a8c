import Xv6.Vm.Spaces

/-!
# Growing is atomic

What `allocuvm` does to the pages of a directory and to the free list, whatever calls of
`kalloc` fail: all pages between the two sizes are new, on frames that were free, or the pages
are those there were and every frame is free again that has not become a table.
-/

namespace Xv6.Vm

open Routine PageTable

/-- The pages from `lo` up to `hi` are new: writable for users, filled with zeros, each on a
frame of its own that was free. -/
structure NewPages (m m' : Mem) (d lo hi : ℕ) : Prop where
  page : ∀ k, lo ≤ k → k < hi → ∃ f ∈ m.freelist, f ∉ m'.freelist ∧
    pteAt m' d k = frameAddr f ||| (pteW ||| pteU) ||| pteP ∧ m'.page f = fun _ => 0
  distinct : ∀ k k', lo ≤ k → k < hi → lo ≤ k' → k' < hi →
    pteFrame (pteAt m' d k) = pteFrame (pteAt m' d k') → k = k'
  other : ∀ k < 2 ^ 20, k < lo ∨ hi ≤ k → pteAt m' d k = pteAt m d k

/-- The pages are those there were, and the frames that are not free any more are tables. -/
structure SamePages (m m' : Mem) (d : ℕ) : Prop where
  present : ∀ k < 2 ^ 20, present (pteAt m' d k) = present (pteAt m d k)
  entry : ∀ k < 2 ^ 20, Vm.present (pteAt m d k) = true → pteAt m' d k = pteAt m d k
  once : m'.freelist.Nodup
  free : ∀ f, f ∈ m.freelist ↔ f ∈ m'.freelist ∨ ∃ i, tableAt m d i = none ∧ tableAt m' d i = some f

section Growth

variable {H O : Type} {lk : Link} {others : O → Option ℕ} {dirs : H → Option ℕ}
  {loose : Set ℕ} {m m' : Mem} {h : H} {d f k lo hi : ℕ} {S : Set (Fin nPdEntries)}

theorem Moves.owner_kept (hmoves : Moves lk others (Place.nodes h) dirs dirs loose m m')
    (hgrows : Grows d S m m') (hd : dirs h = some d) {q : Spot H O}
    (hq : owner m dirs others q = some f) : owner m' dirs others q = some f := by
  by_cases hnode : q ∈ Place.nodes h
  · cases q with
    | dir h' => exact hq
    | table h' i =>
      obtain rfl := Option.some.inj hnode.2
      rw [owner_table hd] at hq ⊢
      exact hgrows.old i f hq
    | page h' i j => exact absurd hnode.1 id
    | other o => exact absurd hnode.1 id
  · exact (hmoves.keeps q hnode f hq).1

variable (hmoves : Moves lk others (Place.nodes h) dirs dirs loose m m') (hgrows : Grows d S m m')
  (hf : Frames lk dirs others loose m) (hd : dirs h = some d)

include hmoves hgrows hf hd in
theorem Moves.was_free {q : Spot H O} (hbefore : owner m dirs others q = none)
    (hafter : owner m' dirs others q = some f) : f ∈ m.freelist := by
  have hf' := hmoves.frames
  refine hf.mem_freelist.2 ⟨hf'.managed_of_owner hafter,
    fun hloose => hf'.owned.unowned f hloose q hafter, fun q' hq' => ?_⟩
  have heq := hf'.owned.inj q' q f (hmoves.owner_kept hgrows hd hq') hafter
  simp [heq, hbefore] at hq'

theorem Added.newPages (hadded : Added lk others dirs loose h d lo hi m m')
    (hf : Frames lk dirs others loose m) (hd : dirs h = some d) (hhi : hi ≤ 2 ^ 19)
    (habsent : ∀ k, lo ≤ k → k < hi → present (pteAt m d k) = false) : NewPages m m' d lo hi := by
  have hf' := hadded.moves.frames
  have howner : ∀ k, lo ≤ k → k < hi →
      owner m' dirs others (.page h (dirIdx k) (tabIdx k)) = some (pteFrame (pteAt m' d k)) := by
    intro k hlo hk
    obtain ⟨f, -, hpte, -⟩ := hadded.page k hlo hk
    exact owner_of_present hd (by omega) (by rw [hpte, present_map])
  refine ⟨fun k hlo hk => ?_, fun k k' hlo hk hlo' hk' heq => ?_, hadded.other⟩
  · obtain ⟨f, hsmall, hpte, hzero⟩ := hadded.page k hlo hk
    have hframe : pteFrame (pteAt m' d k) = f := by
      rw [hpte, pteFrame_map _ (by decide), pteFrame_frameAddr hsmall]
    have hnew := howner k hlo hk
    rw [hframe] at hnew
    have hold : owner m dirs others (.page h (dirIdx k) (tabIdx k)) = none :=
      (owner_page hd k).trans (leaf_of_absent k (habsent k hlo hk))
    exact ⟨f, hadded.moves.was_free hadded.grows hf hd hold hnew, (hf'.owned.used_of_ref hnew).2,
      hpte, hzero⟩
  · have hplace := hf'.owned.inj _ _ _ (howner k hlo hk) (heq ▸ howner k' hlo' hk')
    injection hplace with _ hdir htab
    exact eq_of_idx (by omega) (by omega) hdir htab

include hmoves hgrows hf hd in
/-- When the present entries are as before, the frames that have left the list are those of the
new tables. -/
theorem Moves.samePages (hpresent : ∀ k < 2 ^ 20, present (pteAt m' d k) = present (pteAt m d k))
    (hentry : ∀ k < 2 ^ 20, present (pteAt m d k) = true → pteAt m' d k = pteAt m d k) :
    SamePages m m' d := by
  have hf' := hmoves.frames
  have hleaf : ∀ k < 2 ^ 20, scheme.leaf (dirIdx k) (tabIdx k) (pteAt m' d k) =
      scheme.leaf (dirIdx k) (tabIdx k) (pteAt m d k) := by
    intro k hk
    cases hp : present (pteAt m d k) with
    | true => rw [hentry k hk hp]
    | false => rw [leaf_of_absent k hp, leaf_of_absent k ((hpresent k hk).trans hp)]
  -- an owner after the call that is not a new table had the frame before
  have howner : ∀ f (q : Spot H O), owner m' dirs others q = some f →
      owner m dirs others q = some f ∨ ∃ i, tableAt m d i = none ∧ tableAt m' d i = some f := by
    intro f q hq
    by_cases hheld : q ∈ Place.held h
    swap
    · rw [hmoves.owner_eq (Place.nodes_subset_held h) (fun _ _ => rfl) hheld] at hq
      exact .inl hq
    cases q with
    | other o => cases hheld
    | dir h' => exact .inl hq
    | table h' i =>
      cases hheld
      rw [owner_table hd] at hq ⊢
      cases ht : tableAt m d i with
      | none => exact .inr ⟨i, ht, hq⟩
      | some t => exact .inl ((hgrows.old i t ht).symm.trans hq)
    | page h' i j =>
      cases hheld
      obtain ⟨k, hk, rfl, rfl⟩ := exists_idx i j
      rw [owner_page hd, hleaf k hk] at hq
      exact .inl ((owner_page hd k).trans hq)
  refine ⟨hpresent, hentry, hf'.nodup, fun f => ⟨fun hfree => ?_, ?_⟩⟩
  · obtain ⟨hmanaged, hloose, hunowned⟩ := hf.mem_freelist.1 hfree
    by_cases hnew : ∃ i, tableAt m d i = none ∧ tableAt m' d i = some f
    · exact .inr hnew
    · exact .inl (hf'.mem_freelist.2 ⟨hmanaged, hloose,
        fun q hq => (howner f q hq).elim (hunowned q) hnew⟩)
  · rintro (hfree | ⟨i, hnone, hi⟩)
    · obtain ⟨hmanaged, hloose, hunowned⟩ := hf'.mem_freelist.1 hfree
      exact hf.mem_freelist.2 ⟨hmanaged, hloose,
        fun q hq => hunowned q (hmoves.owner_kept hgrows hd hq)⟩
    · have hbefore : owner m dirs others (.table h i) = none := (owner_table hd i).trans hnone
      have hafter : owner m' dirs others (.table h i) = some f := (owner_table hd i).trans hi
      exact hmoves.was_free hgrows hf hd hbefore hafter

theorem Restored.samePages (hback : Restored lk others dirs loose h d lo hi m m')
    (hf : Frames lk dirs others loose m) (hd : dirs h = some d)
    (habsent : ∀ k, lo ≤ k → k < hi → present (pteAt m d k) = false) : SamePages m m' d := by
  refine hback.moves.samePages hback.grows hf hd (fun k hk => ?_) fun k hk hp => ?_
  · by_cases hin : lo ≤ k ∧ k < hi
    · rw [hback.absent k hin.1 hin.2, habsent k hin.1 hin.2]
    · rw [hback.other k hk (by omega)]
  · by_cases hin : lo ≤ k ∧ k < hi
    · simp [habsent k hin.1 hin.2] at hp
    · exact hback.other k hk (by omega)

theorem SamePages.refl (hf : Frames lk dirs others loose m) (d : ℕ) : SamePages m m d := by
  refine ⟨fun _ _ => rfl, fun _ _ _ => rfl, hf.nodup, fun f => ⟨.inl, ?_⟩⟩
  rintro (hfree | ⟨i, hnone, hi⟩)
  · exact hfree
  · simp [hnone] at hi

end Growth

/-- `allocuvm` on a directory without a user page from the old size on, whatever calls of
`kalloc` fail: either it returns the new size and the pages between the sizes are new, or it
returns 0 and the pages are those there were. It never stops at `remap`, or at all. -/
theorem allocuvm_atomic {H O : Type} [DecidableEq H] {lk : Link} {dirs : H → Option ℕ}
    {others : O → Option ℕ} {loose : Set ℕ} {m : Mem} {h : H} {d : ℕ} {oldsz : BitVec 32}
    (hf : Frames lk dirs others loose m) (hd : dirs h = some d)
    (habove : ∀ k, pagesOf oldsz ≤ k → k < 2 ^ 19 → present (pteAt m d k) = false)
    (newsz : BitVec 32) :
    wp (allocuvm lk d oldsz newsz) (fun r m' =>
      (r = newsz → oldsz < newsz → NewPages m m' d (pagesOf oldsz) (pagesOf newsz)) ∧
      (r = 0 → SamePages m m' d) ∧ (r = newsz ∨ r = 0 ∨ newsz < oldsz ∧ r = oldsz ∧ m' = m) ∧
      Frames lk dirs others loose m') (fun _ _ => False) m := by
  refine wp_mono_ok (allocuvm_spec hf hd habove) ?_
  rintro r m' (⟨hbig, rfl, rfl⟩ | ⟨hless, -, rfl, rfl⟩ | ⟨hle, hlt, hrest⟩)
  · refine ⟨fun hr hgrow => ?_, fun _ => SamePages.refl hf d, .inr (.inl rfl), hf⟩
    rw [← hr] at hgrow
    exact absurd hgrow BitVec.not_lt_zero
  · refine ⟨fun hr hgrow => ?_, fun _ => SamePages.refl hf d, .inr (.inr ⟨hless, rfl, rfl⟩), hf⟩
    rw [← hr] at hgrow
    exact absurd hgrow (BitVec.lt_irrefl _)
  have hnew := BitVec.lt_def.1 hlt
  have hpages := pagesOf_le (Nat.le_of_lt hnew)
  have hempty : ∀ k, pagesOf oldsz ≤ k → k < pagesOf newsz → present (pteAt m d k) = false :=
    fun k hlo hk => habove k hlo (by omega)
  rcases hrest with ⟨rfl, hadded⟩ | ⟨rfl, hback⟩
  · refine ⟨fun _ _ => hadded.newPages hf hd hpages hempty, fun hzero => ?_, .inl rfl,
      hadded.moves.frames⟩
    -- both sizes are 0, so that no page has been added
    have hrange : pagesOf r ≤ pagesOf oldsz := by
      rw [hzero]
      exact Nat.zero_le _
    refine hadded.moves.samePages hadded.grows hf hd (fun k hk => ?_) fun k hk _ => ?_
    · rw [hadded.other k hk (by omega)]
    · exact hadded.other k hk (by omega)
  · refine ⟨fun hr hgrow => ?_, fun _ => hback.samePages hf hd hempty, .inr (.inl rfl),
      hback.moves.frames⟩
    rw [← hr] at hgrow
    exact absurd hgrow BitVec.not_lt_zero

theorem exists_directory {H O : Type} [DecidableEq H] (h : H) : ∃ d m,
    Frames smallLink (Function.update (fun _ => none) h (some d)) (fun _ : O => none) ∅ m ∧
      KernelPart m d ∧ (∀ k < 2 ^ 19, pteAt m d k = 0) ∧ m.stock = 57021 := by
  obtain ⟨m₀, hfree, hstart⟩ : ∃ m₀, Frames smallLink (fun _ : H => none) (fun _ : O => none) ∅ m₀ ∧
      m₀.stock = 57086 := ⟨freshMem, frames_allFree smallLink _ _, stock_freshMem⟩
  obtain ⟨r, m, -, hpost⟩ := wp_returns (setupkvm_spec (h := h) hfree rfl) fun _ _ => id
  cases r with
  | none =>
    omega
  | some d =>
    obtain ⟨hmoves, hkernel, -, hzero, hstock⟩ := hpost
    exact ⟨d, m, hmoves.frames, hkernel, hzero, by omega⟩

theorem allocuvm_atomic_two : ∃ d m m', allocuvm smallLink d 0 8192 m = (.ok 8192, m') ∧
    NewPages m m' d 0 2 := by
  obtain ⟨d, m, hf, -, hzero, hstock⟩ := exists_directory (H := Unit) (O := Unit) ()
  have hd := Function.update_self () (some d) fun _ : Unit => none
  have habove : ∀ k, pagesOf 0 ≤ k → k < 2 ^ 19 → present (pteAt m d k) = false := by
    intro k _ hk
    rw [hzero k hk, present_zero]
  have hboth := wp_and (allocuvm_atomic hf hd habove 8192) (allocuvm_spec hf hd habove)
  obtain ⟨r, m', hrun, ⟨hnew, -⟩, hcase⟩ := wp_returns hboth fun _ _ hstop => hstop.1
  -- there are frames enough, so the call does not fail
  rcases hcase with ⟨hbig, -⟩ | ⟨hless, -⟩ | ⟨-, -, ⟨rfl, -⟩ | ⟨-, hback⟩⟩
  · exact absurd hbig (by decide)
  · exact absurd hless (by decide)
  · exact ⟨d, m, m', hrun, hnew rfl (by decide)⟩
  · have hshort : m.stock ≤ 1024 + 2 := hback.short
    omega

theorem exists_pages {H O : Type} [DecidableEq H] (h : H) : ∃ d m,
    Frames smallLink (Function.update (fun _ => none) h (some d)) (fun _ : O => none) ∅ m ∧
      (∀ k < 2, present (pteAt m d k) = true) ∧
      (∀ k, 2 ≤ k → k < 2 ^ 19 → present (pteAt m d k) = false) ∧ 50000 ≤ m.stock := by
  obtain ⟨d, m₀, hf, -, hzero, hstock⟩ := exists_directory (O := O) h
  have habove : ∀ k, pagesOf 0 ≤ k → k < 2 ^ 19 → present (pteAt m₀ d k) = false := by
    intro k _ hk
    rw [hzero k hk, present_zero]
  have hspec : wp (allocuvm smallLink d 0 8192) _ _ m₀ :=
    allocuvm_spec hf (Function.update_self h (some d) fun _ => none) habove
  obtain ⟨r, m, -, hcase⟩ := wp_returns hspec fun _ _ => id
  rcases hcase with ⟨hbig, -⟩ | ⟨hless, -⟩ | ⟨-, -, ⟨-, hadded⟩ | ⟨-, hback⟩⟩
  · exact absurd hbig (by decide)
  · exact absurd hless (by decide)
  · have hspent : m.stock + (tables m d).card + 2 = m₀.stock + (tables m₀ d).card := hadded.spent
    have hcard := card_tables_le m d
    refine ⟨d, m, hadded.moves.frames, fun k hk => ?_, fun k hlo hk => ?_, by omega⟩
    · obtain ⟨f, -, hpte, -⟩ := hadded.page k (Nat.zero_le k) hk
      rw [hpte, present_map]
    · rw [hadded.other k (by omega) (.inr hlo), habove k (Nat.zero_le k) hk]
  · have hshort : m₀.stock ≤ 1024 + 2 := hback.short
    omega

end Xv6.Vm
