import Xv6.Vm.Walk

/-!
# Growing and shrinking an address space

`deallocuvm` and `allocuvm` on the directory of a holder. The first clears the entries of a
range of pages and gives their frames back, whichever of them are present and whichever
tables there are. The second adds the pages of a range in which there are none; when it fails
the entries are as before, while new tables may stay.
-/

namespace Xv6.Vm

open Routine PageTable BitVec Nat Set

variable {H O : Type} {lk : Link} {others : O → Option ℕ} {dirs : H → Option ℕ} {loose : Set ℕ}
  {h : H} {m₁ m' : Mem}

def span {H O : Type} (h : H) (lo hi : ℕ) : Set (Spot H O) :=
  {q | ∃ k, lo ≤ k ∧ k < hi ∧ q = .page h (dirIdx k) (tabIdx k)}

def unmapped (pte : BitVec 32) : BitVec 32 := if present pte = true then 0 else pte

theorem unmapped_of_present {pte : BitVec 32} (hp : present pte = true) : unmapped pte = 0 :=
  if_pos hp

theorem unmapped_of_absent {pte : BitVec 32} (hp : present pte = false) : unmapped pte = pte :=
  if_neg (ne_true_of_eq_false hp)

theorem present_unmapped (pte : BitVec 32) : present (unmapped pte) = false := by
  cases hp : present pte with
  | true => rw [unmapped_of_present hp, present_zero]
  | false => rw [unmapped_of_absent hp, hp]

section Dealloc

variable {m : Mem} {d k t : ℕ}

theorem freePage_spec [DecidableEq H] (hf : Frames lk dirs others loose m) (hd : dirs h = some d)
    (hk : k < 2 ^ 19) (hp : present (pteAt m d k) = true) (ht : tableAt m d (dirIdx k) = some t) :
    wp (kfree lk (pteFrame (pteAt m d k))) (fun _ m₁ =>
      Moves lk others (Place.nodes h ∪ span h k (k + 1)) dirs dirs loose m
          (m₁.setPte t (tabIdx k) 0) ∧
        (∀ i, tableAt (m₁.setPte t (tabIdx k) 0) d i = tableAt m d i) ∧
        ∀ k' < 2 ^ 20, pteAt (m₁.setPte t (tabIdx k) 0) d k' =
          if k' = k then 0 else pteAt m d k') (fun _ _ => False) m := by
  have howner : owner m dirs others (.page h (dirIdx k) (tabIdx k)) = _ :=
    owner_of_present hd hk hp
  generalize hfr : pteFrame (pteAt m d k) = f at howner
  have hread := fun j => read_setU32 (m.page t) (tabIdx k) j 0
  have hnotLoose : f ∉ loose := fun hloose => hf.owned.unowned f hloose _ howner
  have hpage : .page h (dirIdx k) (tabIdx k) ∈
      Place.nodes h ∪ (span h k (k + 1) : Set (Spot H O)) :=
    .inr ⟨k, le_rfl, lt_succ_self k, rfl⟩
  -- clear the entry first: its frame is then loose, and giving it back is not seen by `d`
  have hclear : Frames lk dirs others (insert f loose) (m.setPte t (tabIdx k) 0) :=
    ⟨hf.nodup, hf.managed,
      owned_unlink hf.owned hd ht hread ((owner_page hd k).symm.trans howner)⟩
  have hmoves := Moves.setPte hf hd ht hclear subset_union_left fun hno => absurd hpage hno
  have hfree := Moves.kfree hclear (mem_insert f loose)
  rw [insert_sdiff_self_of_notMem hnotLoose] at hfree
  obtain ⟨-, htables, hptes⟩ := hfree.same (notMem_empty_of_node h) hd
  have hft : f ≠ t := by
    rintro rfl
    have heq := hf.owned.inj _ (.table h (dirIdx k)) f howner ((owner_table hd _).trans ht)
    cases heq
  have hstate : (m.free f).setPte t (tabIdx k) 0 = (m.setPte t (tabIdx k) 0).free f := by
    simp only [Mem.free, Mem.setPte, Mem.setPage, Function.update_of_ne hft.symm,
      Function.update_comm hft.symm]
  rw [kfree, if_pos (hf.managed_of_owner howner), wp_update, hstate]
  refine ⟨hmoves.trans (hfree.mono (empty_subset _)), fun i => ?_, fun k' hk' => ?_⟩
  · rw [htables, tableAt_setPte hf hd ht]
  · rw [hptes, pteAt_setPte hf hd (lt_trans hk (by decide)) ht hk']

/-- The pages of a range are gone, and the entries of all others as before. -/
structure Cleared (lk : Link) (others : O → Option ℕ) (dirs : H → Option ℕ) (loose : Set ℕ)
    (h : H) (d lo hi : ℕ) (m m' : Mem) : Prop where
  moves : Moves lk others (Place.nodes h ∪ span h lo hi) dirs dirs loose m m'
  table : ∀ i, tableAt m' d i = tableAt m d i
  gone : ∀ k, lo ≤ k → k < hi → pteAt m' d k = unmapped (pteAt m d k)
  other : ∀ k < 2 ^ 20, k < lo ∨ hi ≤ k → pteAt m' d k = pteAt m d k

variable {lo mid hi : ℕ}

theorem span_subset (hlo : lo ≤ mid) : (span h mid hi : Set (Spot H O)) ⊆ span h lo hi := by
  rintro q ⟨k, hk, hk', rfl⟩
  exact ⟨k, hlo.trans hk, hk', rfl⟩

theorem Cleared.nil (hf : Frames lk dirs others loose m) (hle : hi ≤ lo) :
    Cleared lk others dirs loose h d lo hi m m :=
  ⟨Moves.refl hf, fun _ => rfl, fun k hlo hhi => absurd hhi (by omega), fun _ _ _ => rfl⟩

theorem Cleared.skip (hle : lo ≤ mid) (hhi : hi ≤ 2 ^ 20)
    (habsent : ∀ k, lo ≤ k → k < mid → present (pteAt m d k) = false)
    (hrest : Cleared lk others dirs loose h d mid hi m m') :
    Cleared lk others dirs loose h d lo hi m m' := by
  refine ⟨hrest.moves.mono (union_subset_union_right _ (span_subset hle)), hrest.table,
    fun k hlo hk => ?_, fun k hk hout => hrest.other k hk (by omega)⟩
  rcases lt_or_ge k mid with hmid | hmid
  · rw [hrest.other k (by omega) (.inl hmid), unmapped_of_absent (habsent k hlo hmid)]
  · exact hrest.gone k hmid hk

theorem Cleared.cons (hhi : hi ≤ 2 ^ 20) (hk : k < hi) (hp : present (pteAt m d k) = true)
    (hmoves : Moves lk others (Place.nodes h ∪ span h k (k + 1)) dirs dirs loose m m₁)
    (htable : ∀ i, tableAt m₁ d i = tableAt m d i)
    (hpte : ∀ k' < 2 ^ 20, pteAt m₁ d k' = if k' = k then 0 else pteAt m d k')
    (hrest : Cleared lk others dirs loose h d (k + 1) hi m₁ m') :
    Cleared lk others dirs loose h d k hi m m' := by
  have hfirst : (span h k (k + 1) : Set (Spot H O)) ⊆ span h k hi := by
    rintro q ⟨k', hk', hk'', rfl⟩
    exact ⟨k', hk', by omega, rfl⟩
  refine ⟨(hmoves.mono (union_subset_union_right _ hfirst)).trans
    (hrest.moves.mono (union_subset_union_right _ (span_subset (le_succ k)))),
    fun i => (hrest.table i).trans (htable i), fun k' hlo hk' => ?_, fun k' hk' hout => ?_⟩
  · rcases eq_or_lt_of_le hlo with rfl | hlt
    · rw [hrest.other k (by omega) (.inl (lt_succ_self k)), hpte k (by omega), if_pos rfl,
        unmapped_of_present hp]
    · have hne : k' ≠ k := ne_of_gt hlt
      rw [hrest.gone k' hlt hk', hpte k' (by omega), if_neg hne]
  · have hne : k' ≠ k := by omega
    rw [hrest.other k' hk' (by omega), hpte k' hk', if_neg hne]

variable {oldsz newsz : BitVec 32}

theorem pagesOf_le (hsz : oldsz.toNat ≤ 2 ^ 31) : pagesOf oldsz ≤ 2 ^ 19 := by
  rw [pagesOf]
  omega

theorem lt_pagesOf {a : BitVec 32} (ha : a.toNat = 4096 * k) : a < oldsz ↔ k < pagesOf oldsz := by
  rw [lt_def, ha, pagesOf]
  omega

theorem toNat_pgAddr (hk : k < 2 ^ 19) :
    (pgAddr ((dirIdx k).val + 1)).toNat = 4096 * ((k / 1024 + 1) * 1024) := by
  have hidx : (dirIdx k).val = k / 1024 := by
    show k / 1024 % 1024 = k / 1024
    omega
  rw [pgAddr, hidx, toNat_shiftLeft, toNat_ofNat, Nat.shiftLeft_eq]
  omega

variable [DecidableEq H]

/-- The loop of `deallocuvm`, by induction on the rounds: every round clears a page or skips
pages that have no entry. -/
theorem deallocLoop_spec (hd : dirs h = some d) (hsz : oldsz.toNat ≤ 2 ^ 31) (n : ℕ)
    {a : BitVec 32} (hf : Frames lk dirs others loose m) (ha : a.toNat = 4096 * k)
    (hn : oldsz.toNat ≤ 4096 * (k + n)) :
    wp (deallocLoop lk d oldsz n a)
      (fun _ m' => Cleared lk others dirs loose h d k (pagesOf oldsz) m m')
      (fun _ _ => False) m := by
  have hpages := pagesOf_le hsz
  induction n generalizing a m k with
  | zero =>
    have hend : ¬ k < pagesOf oldsz := by
      rw [pagesOf]
      omega
    rw [deallocLoop, if_neg ((lt_pagesOf ha).not.2 hend)]
    exact Cleared.nil hf (not_lt.1 hend)
  | succ n ih =>
    by_cases hk : k < pagesOf oldsz
    swap
    · rw [deallocLoop, if_neg ((lt_pagesOf ha).not.2 hk)]
      exact Cleared.nil hf (not_lt.1 hk)
    have hkdiv : a.toNat / 4096 = k := by omega
    have hdir : pdx a = dirIdx k := hkdiv ▸ pdx_eq a
    have htab : ptx a = tabIdx k := hkdiv ▸ ptx_eq a
    have hnext : (a + 4096).toNat = 4096 * (k + 1) := by
      rw [toNat_add_page (by omega)]
      omega
    rw [deallocLoop, if_pos ((lt_pagesOf ha).2 hk), wp_bind, wp, walkpgdir_look, hdir, htab]
    cases ht : tableAt m d (dirIdx k) with
    | none =>
      -- the loop goes on at the first page of the next table
      have hjump : (pgAddr ((dirIdx k).val + 1) - 4096 + 4096).toNat =
          4096 * ((k / 1024 + 1) * 1024) := by
        rw [sub_add_cancel]
        exact toNat_pgAddr (by omega)
      refine wp_mono_ok (ih hf hjump (by omega)) ?_
      intro _ m' hrest
      refine hrest.skip (by omega) (by omega) fun k' hlo hhi => ?_
      have hidx : dirIdx k' = dirIdx k :=
        Fin.ext (show k' / 1024 % 1024 = k / 1024 % 1024 by omega)
      rw [pteAt_of_none ((congrArg (tableAt m d) hidx).trans ht), present_zero]
    | some t =>
      have hpte : m.pte t (tabIdx k) = pteAt m d k := (pteAt_of_table ht).symm
      simp only [Option.map_some, readPte, writePte, wp_bind, wp_look, wp_ite, hpte]
      refine ⟨fun hp => ⟨fun hzero => ?_, fun _ => ?_⟩, fun hp => ?_⟩
      · have howner : owner m dirs others (.page h (dirIdx k) (tabIdx k)) = _ :=
          owner_of_present hd (by omega) hp
        exact (hf.managed_of_owner howner).ne_zero hzero
      · refine wp_mono_ok (freePage_spec hf hd (by omega) hp ht) ?_
        rintro _ m₁ ⟨hmoves, htable, hptes⟩
        rw [wp_update]
        exact wp_mono_ok (ih hmoves.frames hnext (by omega)) fun _ m' hrest =>
          hrest.cons (by omega) hk hp hmoves htable hptes
      · refine wp_mono_ok (ih hf hnext (by omega)) ?_
        intro _ m' hrest
        refine hrest.skip (le_succ k) (by omega) fun k' hlo hhi => ?_
        obtain rfl : k' = k := by omega
        exact Bool.eq_false_of_not_eq_true hp

theorem deallocuvm_spec (hf : Frames lk dirs others loose m) (hd : dirs h = some d)
    (hsz : oldsz.toNat ≤ 2 ^ 31) :
    wp (deallocuvm lk d oldsz newsz) (fun r m' =>
      oldsz ≤ newsz ∧ r = oldsz ∧ m' = m ∨ newsz < oldsz ∧ r = newsz ∧
        Cleared lk others dirs loose h d (pagesOf newsz) (pagesOf oldsz) m m')
      (fun _ _ => False) m := by
  rw [deallocuvm, wp_ite]
  refine ⟨fun hle => .inl ⟨hle, rfl, rfl⟩, fun hlt => ?_⟩
  have hlt : newsz < oldsz := BitVec.not_le.1 hlt
  have hnat := BitVec.lt_def.1 hlt
  rw [wp_bind]
  refine wp_mono_ok (deallocLoop_spec hd hsz _ hf (toNat_pgRoundUp (by omega)) ?_) ?_
  · rw [pgSize]
    omega
  · exact fun _ m' hcleared => .inr ⟨hlt, rfl, hcleared⟩

end Dealloc

section Alloc

variable {m m₀ : Mem} {d f k : ℕ} {a perm oldsz newsz : BitVec 32}

theorem mappages_page (ha : a.toNat % 4096 = 0) (d : ℕ) (pa perm : BitVec 32) :
    mappages d a 4096 pa perm = mapLoop d a perm 1 a pa := by
  have hfirst : pgRoundDown a = a := by
    apply BitVec.eq_of_toNat_eq
    rw [toNat_pgRoundDown]
    omega
  have hend : (a + 4096 - 1).toNat = a.toNat + 4095 := by
    have hpage : (4096 : BitVec 32).toNat = 4096 := rfl
    have hone : (1 : BitVec 32).toNat = 1 := rfl
    rw [BitVec.toNat_sub, BitVec.toNat_add, hpage, hone]
    omega
  have hlast : pgRoundDown (a + 4096 - 1) = a := by
    apply BitVec.eq_of_toNat_eq
    rw [toNat_pgRoundDown, hend]
    omega
  simp only [mappages, hfirst, hlast, BitVec.sub_self, BitVec.toNat_zero, Nat.zero_div]

theorem leaf_map (hk : k < 2 ^ 19) (hf : f < 2 ^ 20) (hperm : perm.toNat < 4096) :
    scheme.leaf (dirIdx k) (tabIdx k) (frameAddr f ||| perm ||| pteP) = some f := by
  rw [leaf_user hk, if_pos (present_map _ _), pteFrame_map _ hperm, pteFrame_frameAddr hf]

theorem mapUser_spec [DecidableEq H] (hf : Frames lk dirs others loose m) (hd : dirs h = some d)
    (ha : a.toNat = 4096 * k) (hk : k < 2 ^ 19) (hperm : perm.toNat < 4096)
    (habsent : present (pteAt m d k) = false) (hloose : f ∈ loose) :
    wp (mappages d a 4096 (frameAddr f) perm) (fun r m' =>
      Grows d {dirIdx k} m m' ∧ (∀ g ∈ loose, m'.page g = m.page g) ∧
      (r = -1 ∧ Moves lk others (Place.nodes h) dirs dirs loose m m' ∧
          (∀ k', pteAt m' d k' = pteAt m d k') ∧ m.stock = 0 ∧ tableAt m d (dirIdx k) = none ∧
          (∀ i, tableAt m' d i = tableAt m d i) ∨
        r = 0 ∧ Spent d 0 m m' ∧ Moves lk others (Place.nodes h) dirs dirs (loose \ {f}) m m' ∧
          (∀ k' < 2 ^ 20, pteAt m' d k' =
            if k' = k then frameAddr f ||| perm ||| pteP else pteAt m d k') ∧
          tableAt m' d (dirIdx k) ≠ none))
      (fun _ _ => False) m := by
  have hleaf := leaf_map hk (hf.managed_of_loose hloose).lt hperm
  have hclaim : ∀ g, scheme.leaf (dirIdx k) (tabIdx k) (frameAddr f ||| perm ||| pteP) = some g →
      g ∈ loose := by
    intro g hg
    cases hleaf.symm.trans hg
    exact hloose
  rw [mappages_page (by omega), mapLoop, wp_bind]
  refine wp_mono_ok (mapPage_spec hf hd (by omega) habsent hclaim) ?_
  rintro r m' ⟨hgrows, hsame, ⟨rfl, hfail⟩ | ⟨rfl, hspent, hmoves, hptes, htable⟩⟩
  · exact ⟨hgrows, hsame, .inl ⟨rfl, hfail⟩⟩
  · rw [if_neg (by decide), if_pos rfl]
    have hset : {g | scheme.leaf (dirIdx k) (tabIdx k) (frameAddr f ||| perm ||| pteP) = some g} =
        {f} := by
      ext g
      rw [mem_ofPred_eq, hleaf, Option.some.injEq, eq_comm, mem_singleton_iff]
    rw [hset] at hmoves
    exact ⟨hgrows, hsame, .inr ⟨rfl, hspent, hmoves, hptes, htable⟩⟩

def userHalf : Set (Fin nPdEntries) := {i | i.val < 512}

/-- The pages of a range are new, each on a frame of zeros, and all others as before. -/
structure Added (lk : Link) (others : O → Option ℕ) (dirs : H → Option ℕ) (loose : Set ℕ)
    (h : H) (d lo hi : ℕ) (m m' : Mem) : Prop where
  moves : Moves lk others (Place.nodes h) dirs dirs loose m m'
  grows : Grows d userHalf m m'
  spent : Spent d (hi - lo) m m'
  page : ∀ k, lo ≤ k → k < hi → ∃ f, f < 2 ^ 20 ∧
    pteAt m' d k = frameAddr f ||| (pteW ||| pteU) ||| pteP ∧ m'.page f = fun _ => 0
  other : ∀ k < 2 ^ 20, k < lo ∨ hi ≤ k → pteAt m' d k = pteAt m d k

/-- A call of `kalloc` has failed, and no page of a range is there. -/
structure Restored (lk : Link) (others : O → Option ℕ) (dirs : H → Option ℕ) (loose : Set ℕ)
    (h : H) (d lo hi : ℕ) (m m' : Mem) : Prop where
  moves : Moves lk others (Place.nodes h) dirs dirs loose m m'
  grows : Grows d userHalf m m'
  absent : ∀ k, lo ≤ k → k < hi → present (pteAt m' d k) = false
  other : ∀ k < 2 ^ 20, k < lo ∨ hi ≤ k → pteAt m' d k = pteAt m d k
  short : m.stock ≤ 1024 + (hi - lo)

variable {lo hi n : ℕ}

theorem Added.nil (hf : Frames lk dirs others loose m) (lo : ℕ) :
    Added lk others dirs loose h d lo lo m m := by
  refine ⟨Moves.refl hf, Grows.of_eq fun _ => rfl, Spent.of_eq (fun _ => rfl) ?_, ?_,
    fun _ _ _ => rfl⟩
  · rw [Nat.sub_self, Nat.add_zero]
  · exact fun k hlo hhi => absurd hhi (by omega)

theorem Cleared.undo (habsent : ∀ k, lo ≤ k → k < hi → present (pteAt m₀ d k) = false)
    (hd : dirs h = some d) (hmoves : Moves lk others (Place.nodes h) dirs dirs loose m₀ m)
    (hcleared : Cleared lk others dirs loose h d lo hi m m') :
    Moves lk others (Place.nodes h) dirs dirs loose m₀ m' := by
  have hall := (hmoves.mono subset_union_left).trans hcleared.moves
  refine ⟨hall.frames, hall.keeps.restrict fun q hq hnot => ?_, hall.refuse⟩
  obtain ⟨k, hlo, hk, rfl⟩ := hq.resolve_left hnot
  exact (owner_page hd k).trans (leaf_of_absent k (habsent k hlo hk))

theorem Added.snoc (hadded : Added lk others dirs loose h d lo k m₀ m) (hlo : lo ≤ k)
    (hk : k < 2 ^ 19) (hd : dirs h = some d) (hf : f < 2 ^ 20)
    (hmoves : Moves lk others (Place.nodes h) dirs dirs loose m m')
    (hgrows : Grows d {dirIdx k} m m') (hspent : Spent d 1 m m') (hzero : m'.page f = fun _ => 0)
    (hpte : ∀ k' < 2 ^ 20, pteAt m' d k' =
      if k' = k then frameAddr f ||| (pteW ||| pteU) ||| pteP else pteAt m d k') :
    Added lk others dirs loose h d lo (k + 1) m₀ m' := by
  have hidx : ({dirIdx k} : Set (Fin nPdEntries)) ⊆ userHalf := by
    rintro i rfl
    exact (dirIdx_lt (by omega)).2 hk
  refine ⟨hadded.moves.trans hmoves, hadded.grows.trans (hgrows.mono hidx), ?_, ?_, ?_⟩
  · have hsum := hadded.spent.trans hspent
    rwa [← Nat.sub_add_comm hlo] at hsum
  · intro k' hlo' hk'
    by_cases hkk : k' = k
    · subst hkk
      exact ⟨f, hf, (hpte k' (by omega)).trans (if_pos rfl), hzero⟩
    · obtain ⟨g, hg, hpteg, hzerog⟩ := hadded.page k' hlo' (by omega)
      refine ⟨g, hg, by rw [hpte k' (by omega), if_neg hkk, hpteg], ?_⟩
      -- the page is kept, since it is not a directory or a table
      have howner : owner m dirs others (.page h (dirIdx k') (tabIdx k')) = some g := by
        rw [owner_page hd, hpteg, leaf_map (by omega) hg (by decide)]
      exact (hmoves.keeps _ (Place.page_notMem_nodes h h _ _) g howner).2.trans hzerog
  · intro k' hk' hout
    have hne : k' ≠ k := by omega
    rw [hpte k' hk', if_neg hne, hadded.other k' hk' (by omega)]

theorem Restored.release (hback : Restored lk others dirs (insert f loose) h d lo hi m₀ m)
    (hd : dirs h = some d) (hf : f ∉ loose)
    (hfree : Moves lk others (∅ : Set (Spot H O)) dirs dirs (insert f loose \ {f}) m m') :
    Restored lk others dirs loose h d lo hi m₀ m' := by
  rw [insert_sdiff_self_of_notMem hf] at hfree
  obtain ⟨-, htables, hptes⟩ := hfree.same (notMem_empty_of_node h) hd
  refine ⟨hback.moves.trans (hfree.mono (empty_subset _)),
    hback.grows.trans (Grows.of_eq htables), fun k hlo hk => ?_, fun k hk hout => ?_, hback.short⟩
  · rw [hptes, hback.absent k hlo hk]
  · rw [hptes, hback.other k hk hout]

variable [DecidableEq H]

theorem deallocuvm_undo (hd : dirs h = some d) (hnew : newsz.toNat < 2 ^ 31) (hlt : oldsz < newsz)
    (habsent : ∀ k, pagesOf oldsz ≤ k → k < pagesOf newsz → present (pteAt m₀ d k) = false)
    (hmoves : Moves lk others (Place.nodes h) dirs dirs loose m₀ m) (hgrows : Grows d userHalf m₀ m)
    (hother : ∀ k < 2 ^ 20, k < pagesOf oldsz ∨ pagesOf newsz ≤ k → pteAt m d k = pteAt m₀ d k)
    (hshort : m₀.stock ≤ 1024 + (pagesOf newsz - pagesOf oldsz)) :
    wp (deallocuvm lk d newsz oldsz)
      (fun _ m' => Restored lk others dirs loose h d (pagesOf oldsz) (pagesOf newsz) m₀ m')
      (fun _ _ => False) m := by
  refine wp_mono_ok (deallocuvm_spec hmoves.frames hd (le_of_lt hnew)) ?_
  rintro r m' (⟨hle, -, -⟩ | ⟨-, -, hcleared⟩)
  · exact absurd hlt (BitVec.not_lt.2 hle)
  · refine ⟨hcleared.undo habsent hd hmoves, hgrows.trans (Grows.of_eq hcleared.table),
      fun k hlo hk => ?_, fun k hk hout => ?_, hshort⟩
    · rw [hcleared.gone k hlo hk, present_unmapped]
    · rw [hcleared.other k hk hout, hother k hk hout]

/-- The loop of `allocuvm`, by induction on the rounds: the pages up to `k` have been
added. -/
theorem allocLoop_spec (hd : dirs h = some d) (hnew : newsz.toNat < 2 ^ 31)
    (habove : ∀ k, pagesOf oldsz ≤ k → k < 2 ^ 19 → present (pteAt m₀ d k) = false) (n : ℕ)
    (hadded : Added lk others dirs loose h d (pagesOf oldsz) k m₀ m) (ha : a.toNat = 4096 * k)
    (hlo : pagesOf oldsz ≤ k) (hhi : k ≤ pagesOf newsz) (hn : newsz.toNat ≤ 4096 * (k + n)) :
    wp (allocLoop lk d oldsz newsz n a) (fun r m' =>
      r = newsz ∧ Added lk others dirs loose h d (pagesOf oldsz) (pagesOf newsz) m₀ m' ∨
      r = 0 ∧ Restored lk others dirs loose h d (pagesOf oldsz) (pagesOf newsz) m₀ m')
      (fun _ _ => False) m := by
  have hpages := pagesOf_le (le_of_lt hnew)
  induction n generalizing a m k with
  | zero =>
    have hend : ¬ k < pagesOf newsz := by
      rw [pagesOf]
      omega
    rw [allocLoop, if_neg ((lt_pagesOf ha).not.2 hend)]
    obtain rfl : k = pagesOf newsz := by omega
    exact .inl ⟨rfl, hadded⟩
  | succ n ih =>
    by_cases hk : k < pagesOf newsz
    swap
    · rw [allocLoop, if_neg ((lt_pagesOf ha).not.2 hk)]
      obtain rfl : k = pagesOf newsz := by omega
      exact .inl ⟨rfl, hadded⟩
    have hlt : oldsz < newsz := by
      rw [lt_def]
      rw [pagesOf] at hk
      rw [pagesOf] at hlo
      omega
    have hempty : ∀ k, pagesOf oldsz ≤ k → k < pagesOf newsz → present (pteAt m₀ d k) = false :=
      fun k hlo hk => habove k hlo (by omega)
    have hnext : (a + 4096).toNat = 4096 * (k + 1) := by
      rw [toNat_add_page (by omega)]
      omega
    have hidx : ({dirIdx k} : Set (Fin nPdEntries)) ⊆ userHalf := by
      rintro i rfl
      exact (dirIdx_lt (by omega)).2 (by omega)
    have habsent : present (pteAt m d k) = false := by
      rw [hadded.other k (by omega) (.inr le_rfl), habove k hlo (by omega)]
    rw [allocLoop, if_pos ((lt_pagesOf ha).2 hk), wp_bind]
    refine wp_mono_ok (kalloc_spec hadded.moves.frames) ?_
    rintro (- | f) m₁ ⟨hpage, hs, hrest⟩
    · obtain ⟨hout, -, hf₁⟩ := hrest
      have hmoves₁ := (Moves.kalloc hpage hs hf₁ : Moves lk others (∅ : Set (Spot H O)) _ _ _ _ _)
      obtain ⟨-, htables₁, hptes₁⟩ := hmoves₁.same (notMem_empty_of_node h) hd
      rw [wp_bind]
      refine wp_mono_ok (deallocuvm_undo hd hnew hlt hempty
        (hadded.moves.trans (hmoves₁.mono (empty_subset _)))
        (hadded.grows.trans (Grows.of_eq htables₁)) ?_
        (hadded.spent.short hout (by omega))) fun _ m' hback => .inr ⟨rfl, hback⟩
      intro k' hk' hout
      rw [hptes₁, hadded.other k' hk' (by omega)]
    · obtain ⟨hstock, -, hnotLoose, hf₁⟩ := hrest
      -- the frame is loose and filled with zeros when it is mapped
      have hmoves₁ := (Moves.kalloc hpage hs hf₁ : Moves lk others (∅ : Set (Spot H O)) _ _ _ _ _)
      have hmoves₂ := hmoves₁.trans (Moves.setLoose hf₁ (mem_insert f loose) fun _ => 0)
      obtain ⟨-, htables₂, hptes₂⟩ := hmoves₂.same (notMem_empty_of_node h) hd
      have hall₂ := hadded.moves.trans (hmoves₂.mono (empty_subset _))
      have hspent₂ : Spent d 1 m (m₁.setPage f fun _ => 0) :=
        Spent.of_eq htables₂ hstock.symm
      rw [wp_bind, fill, wp_update, wp_bind]
      refine wp_mono_ok (mapUser_spec hmoves₂.frames hd ha (by omega) (by decide)
        (by rw [hptes₂, habsent]) (mem_insert f loose)) ?_
      rintro r m₃ ⟨hgrows, hsame, ⟨rfl, hmoves₃, hptes₃, hout, -, -⟩ |
        ⟨rfl, hspent₃, hmoves₃, hptes₃, -⟩⟩
      · have hshort := (hadded.spent.trans hspent₂).short hout
          (show k - pagesOf oldsz + 1 ≤ pagesOf newsz - pagesOf oldsz by omega)
        rw [if_pos (by decide), wp_bind]
        refine wp_mono_ok (deallocuvm_undo hd hnew hlt hempty (hall₂.trans hmoves₃)
          ((hadded.grows.trans (Grows.of_eq htables₂)).trans (hgrows.mono hidx)) ?_ hshort) ?_
        · intro k' hk' hout
          rw [hptes₃, hptes₂, hadded.other k' hk' (by omega)]
        · intro _ m₄ hback
          rw [wp_bind]
          refine wp_mono_ok (kfree_spec hback.moves.frames (mem_insert f loose)) ?_
          rintro _ m₅ ⟨hfree, -, -⟩
          exact .inr ⟨rfl, hback.release hd hnotLoose hfree⟩
      · rw [insert_sdiff_self_of_notMem hnotLoose] at hmoves₃
        have hzero : m₃.page f = fun _ => 0 := by
          rw [hsame f (mem_insert f loose), page_setPage_self]
        have hmanaged := hf₁.managed_of_loose (mem_insert f loose)
        refine ih (hadded.snoc hlo (by omega) hd hmanaged.lt
          ((hmoves₂.mono (empty_subset _)).trans hmoves₃)
          ((Grows.of_eq htables₂).trans hgrows) (hspent₂.trans hspent₃) hzero ?_) hnext
          (by omega) (by omega) (by omega)
        intro k' hk'
        rw [hptes₃ k' hk', hptes₂]

theorem allocuvm_spec (hf : Frames lk dirs others loose m) (hd : dirs h = some d)
    (habove : ∀ k, pagesOf oldsz ≤ k → k < 2 ^ 19 → present (pteAt m d k) = false) :
    wp (allocuvm lk d oldsz newsz) (fun r m' =>
      kernBase ≤ newsz ∧ r = 0 ∧ m' = m ∨
      newsz < oldsz ∧ newsz < kernBase ∧ r = oldsz ∧ m' = m ∨
      oldsz ≤ newsz ∧ newsz < kernBase ∧
        (r = newsz ∧ Added lk others dirs loose h d (pagesOf oldsz) (pagesOf newsz) m m' ∨
        r = 0 ∧ Restored lk others dirs loose h d (pagesOf oldsz) (pagesOf newsz) m m'))
      (fun _ _ => False) m := by
  rw [allocuvm, wp_ite, wp_ite]
  refine ⟨fun hle => .inl ⟨hle, rfl, rfl⟩, fun hlt => ?_⟩
  have hlt : newsz < kernBase := BitVec.not_le.1 hlt
  have hnat := BitVec.lt_def.1 hlt
  rw [toNat_kernBase] at hnat
  refine ⟨fun hless => .inr (.inl ⟨hless, hlt, rfl, rfl⟩), fun hge => ?_⟩
  have hle : oldsz ≤ newsz := BitVec.not_lt.1 hge
  have hle' := BitVec.le_def.1 hle
  refine wp_mono_ok (allocLoop_spec hd hnat habove _ (Added.nil hf _)
    (toNat_pgRoundUp (by omega)) le_rfl ?_ ?_) fun r m' hpost => .inr (.inr ⟨hle, hlt, hpost⟩)
  · rw [pagesOf, pagesOf]
    omega
  · rw [pgSize]
    omega

end Alloc

end Xv6.Vm
