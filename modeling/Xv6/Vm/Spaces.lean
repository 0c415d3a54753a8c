import Xv6.Vm.Setup

/-!
# Whole address spaces

`setupkvm` starts a directory for a holder that has none, with the mappings of `kmap` in the
kernel half and an empty user half. `freevm` gives back all that the directory of a holder
owns. `copyuvm` builds the directory of one holder with copies of the pages of another. Each of
them leaves nothing loose, whether it fails or not.
-/

namespace Xv6.Vm

open Routine PageTable Function List

variable {H O : Type} {lk : Link} {others : O → Option ℕ} {loose : Set ℕ}

variable {i : Fin nPdEntries} {done : List (Fin nPdEntries)}

theorem mem_indices {n : ℕ} (i : Fin n) : i ∈ indices n := by
  rw [indices]
  exact mem_finRange i

theorem nodup_indices (n : ℕ) : (indices n).Nodup := by
  rw [indices]
  exact nodup_finRange n

section Free

variable {dirs : H → Option ℕ} {m : Mem} {h : H} {d : ℕ}

def left (m : Mem) (d : ℕ) (done : List (Fin nPdEntries)) : Set ℕ :=
  {f | f = d ∨ ∃ i, i ∉ done ∧ tableAt m d i = some f}

theorem left_concat_of_none
    (hnone : tableAt m d i = none) : left m d (done ++ [i]) = left m d done := by
  ext f
  refine or_congr_right (exists_congr fun i' => and_congr_left fun hi' => ?_)
  have hne : i' ≠ i := by
    rintro rfl
    simp [hnone] at hi'
  simp [hne]

theorem left_concat_of_some {t : ℕ}
    (hinj : ∀ i i' t, tableAt m d i = some t → tableAt m d i' = some t → i = i')
    (ht : tableAt m d i = some t) (hloose : t ∉ loose) (hne : t ≠ d) :
    loose ∪ left m d (done ++ [i]) = (loose ∪ left m d done) \ {t} := by
  ext f
  constructor
  · rintro (hf | rfl | ⟨i', hi', hf⟩)
    · exact ⟨.inl hf, fun heq => hloose (Set.mem_singleton_iff.1 heq ▸ hf)⟩
    · exact ⟨.inr (.inl rfl), fun heq => hne (Set.mem_singleton_iff.1 heq).symm⟩
    · rw [mem_append, not_or, mem_singleton] at hi'
      refine ⟨.inr (.inr ⟨i', hi'.1, hf⟩), fun heq => hi'.2 (hinj i' i t ?_ ht)⟩
      rw [hf, Set.mem_singleton_iff.1 heq]
  · rintro ⟨hf | rfl | ⟨i', hi', hf⟩, hft⟩
    · exact .inl hf
    · exact .inr (.inl rfl)
    · refine .inr (.inr ⟨i', ?_, hf⟩)
      rw [mem_append, not_or, mem_singleton]
      refine ⟨hi', ?_⟩
      rintro rfl
      exact hft (Option.some.inj (hf.symm.trans ht))

/-- The loop of `freevm` gives back the tables of a directory that nobody holds any more. -/
theorem freeTables_spec (hf : Frames lk dirs others (loose ∪ left m d []) m)
    (hinj : ∀ i i' t, tableAt m d i = some t → tableAt m d i' = some t → i = i')
    (hfresh : ∀ i t, tableAt m d i = some t → t ∉ loose ∧ t ≠ d) :
    wp (freeTables lk d) (fun _ m' =>
      Moves lk others (∅ : Set (Spot H O)) dirs dirs (loose ∪ {d}) m m') (fun _ _ => False) m := by
  have hloop : wp (freeTables lk d) (fun _ m' =>
      Moves lk others (∅ : Set (Spot H O)) dirs dirs
        (loose ∪ left m d (indices nPdEntries)) m m' ∧ m'.page d = m.page d)
      (fun _ _ => False) m := by
    refine wp_forEach_done (I := fun done m' =>
      Moves lk others (∅ : Set (Spot H O)) dirs dirs (loose ∪ left m d done) m m' ∧
        m'.page d = m.page d) ⟨Moves.refl hf, rfl⟩ ?_
    rintro done i rest hlist m₁ ⟨hmoves, hpage⟩
    have hnew : i ∉ done := by
      have hnodup := nodup_indices nPdEntries
      rw [hlist] at hnodup
      exact fun hi => (disjoint_of_nodup_append hnodup) hi mem_cons_self
    have hpde : m₁.pte d i = m.pte d i := by
      simp only [Mem.pte, hpage]
    have htable := tableAt_eq m d i
    simp only [readPte, wp_bind, wp_look, wp_ite, hpde]
    refine ⟨fun hp => ?_, fun hp => ?_⟩
    · rw [if_pos hp] at htable
      obtain ⟨hloose, hne⟩ := hfresh i _ htable
      refine wp_mono_ok (kfree_spec hmoves.frames (.inr (.inr ⟨i, hnew, htable⟩))) ?_
      rintro _ m₂ ⟨hfree, -, hsame⟩
      rw [← left_concat_of_some hinj htable hloose hne] at hfree
      exact ⟨hmoves.trans hfree, (hsame d hne.symm).trans hpage⟩
    · rw [if_neg hp] at htable
      rw [wp_pure, left_concat_of_none htable]
      exact ⟨hmoves, hpage⟩
  refine wp_mono_ok hloop fun _ m' hmoves => ?_
  have hend : left m d (indices nPdEntries) = {d} := by
    ext f
    simp [left, mem_indices]
  rw [hend] at hmoves
  exact hmoves.1

theorem nodes_union_span_subset {lo hi : ℕ} :
    (Place.nodes h ∪ span h lo hi : Set (Spot H O)) ⊆ Place.held h := by
  rintro q (hq | ⟨k, -, -, rfl⟩)
  · exact Place.nodes_subset_held h hq
  · rfl

theorem freevm_spec [DecidableEq H] (hf : Frames lk dirs others loose m) (hd : dirs h = some d) :
    wp (freevm lk d) (fun _ m' =>
      Moves lk others (Place.held h) dirs (update dirs h none) loose m m')
      (fun _ _ => False) m := by
  have hzero : (0 : BitVec 32) < kernBase := by decide
  have hlo : pagesOf 0 = 0 := by decide
  have hhi : pagesOf kernBase = 2 ^ 19 := by decide
  rw [freevm, wp_bind]
  refine wp_mono_ok (deallocuvm_spec hf hd (by decide)) ?_
  rintro r m₁ (⟨hle, -, -⟩ | ⟨-, -, hcleared⟩)
  · exact absurd hzero (BitVec.not_lt.2 hle)
  rw [hlo, hhi] at hcleared
  have hf₁ := hcleared.moves.frames
  -- without pages, the directory owns its frame and those of its tables
  have hpages : ∀ i j, scheme.leaf i j (entry scheme m₁.page d i j) = none := by
    intro i j
    obtain ⟨k, hk, rfl, rfl⟩ := exists_idx i j
    rcases Nat.lt_or_ge k (2 ^ 19) with huser | hkernel
    · refine leaf_of_absent k ?_
      have hgone : entry scheme m₁.page d (dirIdx k) (tabIdx k) = _ :=
        hcleared.gone k (Nat.zero_le k) huser
      rw [hgone, present_unmapped]
    · exact leaf_kernel hkernel hk _
  have hleft : left m₁ d [] = {f | f = d ∨ ∃ i, table scheme m₁.page d i = some f} := by
    simp only [left, not_mem_nil, not_false_eq_true, true_and, tableAt]
  have hdrop : Frames lk (update dirs h none) others (loose ∪ left m₁ d []) m₁ :=
    ⟨hf₁.nodup, hf₁.managed, hleft ▸ owned_dropDir hf₁.owned hd hpages⟩
  have howner : ∀ i t, tableAt m₁ d i = some t → owner m₁ dirs others (.table h i) = some t :=
    fun i t ht => (owner_table hd i).trans ht
  have hmoves : Moves lk others (Place.held h) dirs (update dirs h none)
      (loose ∪ left m₁ d []) m m₁ :=
    ⟨hdrop, (hcleared.moves.keeps.mono nodes_union_span_subset).trans (Keeps.setDir h none),
      hcleared.moves.refuse⟩
  rw [wp_bind]
  refine wp_mono_ok (freeTables_spec hdrop ?_ ?_) ?_
  · intro i i' t hi hi'
    have heq := hf₁.owned.inj _ _ t (howner i t hi) (howner i' t hi')
    cases heq
    rfl
  · intro i t hi
    refine ⟨fun hloose => hf₁.owned.unowned t hloose _ (howner i t hi), ?_⟩
    rintro rfl
    have heq := hf₁.owned.inj _ (.dir h) t (howner i t hi) hd
    cases heq
  · intro _ m₂ htables
    have hd' : d ∉ loose := fun hloose => hf₁.owned.unowned d hloose (.dir h) hd
    refine wp_mono_ok (kfree_spec htables.frames (.inr rfl)) ?_
    rintro _ m₃ ⟨hfree, -, -⟩
    have hset : (loose ∪ {d}) \ {d} = loose := by
      rw [Set.union_sdiff_right, Set.sdiff_singleton_eq_self hd']
    rw [hset] at hfree
    exact (hmoves.trans (htables.mono (Set.empty_subset _))).trans (hfree.mono (Set.empty_subset _))

end Free

section Setup

variable {dirs : H → Option ℕ} {m m' : Mem} {h : H} {d : ℕ}

theorem mem_kernelIdx_of_page {k : ℕ} (hk : k ∈ kernelPages) : dirIdx k ∈ kernelIdx := by
  have hidx : (dirIdx k).val = k / 1024 % 1024 := rfl
  rw [kernelIdx, Finset.mem_filter, hidx]
  refine ⟨Finset.mem_univ _, ?_⟩
  rcases hk with hk | hk <;> omega

theorem exists_page_of_mem_kernelIdx (hi : i ∈ kernelIdx) : ∃ k ∈ kernelPages, dirIdx k = i := by
  have hlt : i.val < 1024 := i.isLt
  obtain ⟨-, hlo, hi⟩ := Finset.mem_filter.1 hi
  refine ⟨1024 * i, ?_, Fin.ext (show 1024 * i.val / 1024 % 1024 = i by omega)⟩
  show 0x80000 ≤ 1024 * i.val ∧ 1024 * i.val < 0x8E000 ∨ _ ∧ 1024 * i.val < 2 ^ 20
  omega

/-- A directory that is empty but for what `kmap` has added. -/
structure Empty (m : Mem) (d : ℕ) : Prop where
  table : ∀ i, tableAt m d i = none
  pte : ∀ k, pteAt m d k = 0

theorem KMapped.tables_subset {done : Prop}
    (hk : KMapped lk others dirs loose h d kernelPages m m' done) (hempty : Empty m d) :
    tables m' d ⊆ kernelIdx := by
  intro i hi
  rcases hk.grows.new i (mem_tables.1 hi) with hold | ⟨k, hpage, rfl⟩
  · exact absurd (hempty.table i) hold
  · exact mem_kernelIdx_of_page hpage

theorem KMapped.user_half {done : Prop}
    (hk : KMapped lk others dirs loose h d kernelPages m m' done) (hempty : Empty m d) {k : ℕ}
    (huser : k < 2 ^ 19) : pteAt m' d k = 0 := by
  have hnot : k ∉ kernelPages := by
    rintro (⟨hlo, -⟩ | ⟨hlo, -⟩) <;> omega
  rw [hk.other k (by omega) hnot, hempty.pte]

theorem KMapped.kernelPart (hk : KMapped lk others dirs loose h d kernelPages m m' True)
    (hempty : Empty m d) : KernelPart m' d := by
  refine ⟨fun i _ => ⟨fun hne => hk.tables_subset hempty (mem_tables.2 hne), fun hi => ?_⟩,
    fun k _ hlt => ?_⟩
  · obtain ⟨k, hpage, rfl⟩ := exists_page_of_mem_kernelIdx hi
    exact (hk.mapped trivial k hpage).1
  · by_cases hpage : k ∈ kernelPages
    · exact (hk.mapped trivial k hpage).2
    · rw [hk.other k hlt hpage, hempty.pte]
      rfl

theorem Empty.tables_eq (hempty : Empty m d) : tables m d = ∅ := by
  refine Finset.eq_empty_of_forall_notMem fun i hi => ?_
  exact mem_tables.1 hi (hempty.table i)

theorem KMapped.stock_eq (hk : KMapped lk others dirs loose h d kernelPages m m' True)
    (hempty : Empty m d) : m.stock = m'.stock + 64 := by
  have htables : tables m' d = kernelIdx := by
    refine (hk.tables_subset hempty).antisymm fun i hi => ?_
    obtain ⟨k, hpage, rfl⟩ := exists_page_of_mem_kernelIdx hi
    exact mem_tables.2 (hk.mapped trivial k hpage).1
  have hspent := hk.spent trivial
  rw [Spent, htables, card_kernelIdx, hempty.tables_eq, Finset.card_empty] at hspent
  omega

theorem KMapped.stock_lt {done : Prop} (hk : KMapped lk others dirs loose h d kernelPages m m' done)
    (hno : ¬ done) (hempty : Empty m d) : m.stock < 64 := by
  obtain ⟨hstock, k, hpage, hnone⟩ := hk.failed hno
  have hmissing : tables m' d ⊂ kernelIdx := by
    refine Finset.ssubset_iff_subset_ne.2 ⟨hk.tables_subset hempty, fun heq => ?_⟩
    have hmem : dirIdx k ∈ tables m' d := heq ▸ mem_kernelIdx_of_page hpage
    exact mem_tables.1 hmem hnone
  have hcard := Finset.card_lt_card hmissing
  rw [card_kernelIdx] at hcard
  omega

/-- `setupkvm` makes a directory with an empty user half. -/
theorem setupkvm_spec [DecidableEq H] (hf : Frames lk dirs others loose m) (hnone : dirs h = none) :
    wp (setupkvm lk) (fun r m' => match r with
      | none => Moves lk others (Place.held h) dirs dirs loose m m' ∧ m.stock < 65
      | some d =>
        Moves lk others (Place.held h) dirs (update dirs h (some d)) loose m m' ∧
          KernelPart m' d ∧ (∀ i : Fin nPdEntries, i.val < 512 → tableAt m' d i = none) ∧
          (∀ k < 2 ^ 19, pteAt m' d k = 0) ∧ m.stock = m'.stock + 65) (fun _ _ => False) m := by
  rw [setupkvm, wp_bind]
  refine wp_mono_ok (kalloc_spec hf) ?_
  rintro (- | d) m₁ ⟨hpage, hs, hrest⟩
  · obtain ⟨hout, -, hf₁⟩ := hrest
    exact ⟨(Moves.kalloc hpage hs hf₁).mono (Set.empty_subset _), by omega⟩
  obtain ⟨hstock, -, hnotLoose, hf₁⟩ := hrest
  have hmoves₁ := (Moves.kalloc hpage hs hf₁ : Moves lk others (∅ : Set (Spot H O)) _ _ _ _ _)
  have hmoves₂ := hmoves₁.trans (Moves.setLoose hf₁ (Set.mem_insert d loose) fun _ => 0)
  generalize hm₂ : (m₁.setPage d fun _ => 0) = m₂ at hmoves₂
  have hread : ∀ i, scheme.read (m₂.page d) i = 0 := by
    intro i
    rw [← hm₂, page_setPage_self, read_fill_zero]
  have hempty : Empty m₂ d := by
    have htable : ∀ i, tableAt m₂ d i = none := by
      intro i
      have hpde : m₂.pte d i = 0 := hread i
      rw [tableAt_eq, hpde, present_zero, if_neg Bool.false_ne_true]
    exact ⟨htable, fun k => pteAt_of_none (htable _)⟩
  -- the cleared frame becomes the directory of the holder
  have hown := owned_newDir hmoves₂.frames.owned hnone (Set.mem_insert d loose) hread
  rw [Set.insert_sdiff_self_of_notMem hnotLoose] at hown
  have hf₂ : Frames lk (update dirs h (some d)) others loose m₂ :=
    ⟨hmoves₂.frames.nodup, hmoves₂.frames.managed, hown⟩
  have hmoves : Moves lk others (Place.held h) dirs (update dirs h (some d)) loose m m₂ :=
    ⟨hf₂, (hmoves₂.keeps.mono (Set.empty_subset _)).trans (Keeps.setDir h (some d)), hmoves₂.refuse⟩
  have hstock₂ : m.stock = m₂.stock + 1 := by
    rw [hstock, ← hm₂]
    rfl
  rw [wp_bind, fill, wp_update, hm₂, if_neg (by decide), wp_bind]
  refine wp_mono_ok (mapKernel_spec (kmap lk) (kmap_ok lk) (kmap_disjoint lk) hf₂
    (update_self h _ _) fun e _ k _ => by rw [hempty.pte k, present_zero]) ?_
  rw [kmap_pages]
  rintro (- | -) m₃ hmapped
  · have hback : update (update dirs h (some d)) h none = dirs := by
      rw [update_idem, ← hnone, update_eq_self]
    rw [if_neg (by decide), wp_bind]
    refine wp_mono_ok (freevm_spec hmapped.moves.frames (update_self h _ _)) ?_
    intro _ m₄ hfree
    rw [hback] at hfree
    have hlt := hmapped.stock_lt (by decide) hempty
    exact ⟨(hmoves.trans (hmapped.moves.mono (Place.nodes_subset_held h))).trans hfree, by omega⟩
  · have hdone : KMapped lk others _ loose h d kernelPages m₂ m₃ True :=
      hmapped.congr (by decide)
    refine ⟨hmoves.trans (hdone.moves.mono (Place.nodes_subset_held h)),
      hdone.kernelPart hempty, fun i hi => ?_, fun k hk => hdone.user_half hempty hk, ?_⟩
    · by_contra hne
      have hidx := Finset.mem_filter.1 (hdone.tables_subset hempty (mem_tables.2 hne))
      omega
    · rw [hstock₂, hdone.stock_eq hempty]

end Setup

section Copy

variable {dirs dirs' : H → Option ℕ} {m m₀ m' : Mem} {h h₀ : H} {pgdir d f k : ℕ}
  {a sz : BitVec 32}

/-- The frames that a copy of `k` pages takes: the directory, the tables of the kernel half,
the pages and their tables. -/
def copyCost (k : ℕ) : ℕ := 65 + k + (k + 1023) / 1024

/-- The pages below `k` are copies of those in `pgdir`, and there are no others. -/
structure Copied (lk : Link) (others : O → Option ℕ) (dirs dirs' : H → Option ℕ) (loose : Set ℕ)
    (h : H) (pgdir d k : ℕ) (m m' : Mem) : Prop where
  moves : Moves lk others (Place.held h) dirs dirs' loose m m'
  kernel : KernelPart m' d
  table : ∀ i : Fin nPdEntries, i.val < 512 → (tableAt m' d i ≠ none ↔ 1024 * i.val < k)
  stock : m.stock = m'.stock + copyCost k
  page : ∀ k' < k, ∃ f < 2 ^ 20,
    pteAt m' d k' = frameAddr f ||| pteFlags (pteAt m pgdir k') ||| pteP ∧
      m'.page f = m.page (pteFrame (pteAt m pgdir k'))
  rest : ∀ k', k ≤ k' → k' < 2 ^ 19 → pteAt m' d k' = 0

section

variable (hc : Copied lk others dirs dirs' loose h pgdir d k m₀ m)
include hc

theorem Copied.stock_snoc (hk : k < 2 ^ 19) (hgrows : Grows d {dirIdx k} m m')
    (htable : tableAt m' d (dirIdx k) ≠ none) (hspent : Spent d 1 m m') :
    m₀.stock = m'.stock + copyCost (k + 1) := by
  have hidx : (dirIdx k).val = k / 1024 := by
    show k / 1024 % 1024 = k / 1024
    omega
  have hthere := hc.table (dirIdx k) (by omega)
  have hstock := hc.stock
  rw [Spent] at hspent
  rw [copyCost] at hstock ⊢
  by_cases hnone : tableAt m d (dirIdx k) = none
  · rw [hgrows.card_tables hnone htable] at hspent
    have hfirst : ¬ 1024 * (dirIdx k).val < k := fun hlt => hthere.2 hlt hnone
    omega
  · rw [hgrows.tables_eq hnone] at hspent
    have hlater := hthere.1 hnone
    omega

theorem Copied.snoc (hd : dirs' h = some d) (hk : k < 2 ^ 19) (hf : f < 2 ^ 20)
    (hmoves : Moves lk others (Place.nodes h) dirs' dirs' loose m m')
    (hgrows : Grows d {dirIdx k} m m') (htable : tableAt m' d (dirIdx k) ≠ none)
    (hspent : Spent d 1 m m') (hpage : m'.page f = m₀.page (pteFrame (pteAt m₀ pgdir k)))
    (hpte : ∀ k' < 2 ^ 20, pteAt m' d k' =
      if k' = k then frameAddr f ||| pteFlags (pteAt m₀ pgdir k) ||| pteP else pteAt m d k') :
    Copied lk others dirs dirs' loose h pgdir d (k + 1) m₀ m' := by
  have hidx : (dirIdx k).val = k / 1024 := by
    show k / 1024 % 1024 = k / 1024
    omega
  have huser : ({dirIdx k} : Set (Fin nPdEntries)) ⊆ userHalf := by
    rintro i rfl
    exact (dirIdx_lt (by omega)).2 hk
  refine ⟨hc.moves.trans (hmoves.mono (Place.nodes_subset_held h)),
    hc.kernel.congr (hgrows.mono huser) fun k' hlo hk' => ?_, fun i hi => ?_,
    hc.stock_snoc hk hgrows htable hspent, fun k' hk' => ?_, fun k' hlo hk' => ?_⟩
  · have hne : k' ≠ k := by omega
    rw [hpte k' hk', if_neg hne]
  · constructor
    · intro hne
      rcases hgrows.new i hne with hold | rfl
      · have hlt := (hc.table i hi).1 hold
        omega
      · omega
    · intro hlt
      by_cases hii : i = dirIdx k
      · exact hii ▸ htable
      · exact hgrows.ne_none ((hc.table i hi).2 (by omega))
  · by_cases hkk : k' = k
    · subst hkk
      exact ⟨f, hf, (hpte k' (by omega)).trans (if_pos rfl), hpage⟩
    · obtain ⟨g, hg, hpteg, hpageg⟩ := hc.page k' (by omega)
      refine ⟨g, hg, by rw [hpte k' (by omega), if_neg hkk, hpteg], ?_⟩
      have howner : owner m dirs' others (.page h (dirIdx k') (tabIdx k')) = some g := by
        rw [owner_page hd, hpteg, leaf_map (by omega) hg (toNat_pteFlags_lt _)]
      exact (hmoves.keeps _ (Place.page_notMem_nodes h h _ _) g howner).2.trans hpageg
  · have hne : k' ≠ k := by omega
    rw [hpte k' (by omega), if_neg hne, hc.rest k' (by omega) hk']

theorem Copied.stock_lt {n : ℕ} (hk : k < 2 ^ 19) (hn : k < n)
    (hnone : tableAt m d (dirIdx k) = none) (hstock : m.stock = 1) : m₀.stock < copyCost n := by
  have hidx : (dirIdx k).val = k / 1024 := by
    show k / 1024 % 1024 = k / 1024
    omega
  have hfirst : ¬ 1024 * (dirIdx k).val < k := fun hlt => (hc.table _ (by omega)).2 hlt hnone
  have hsum := hc.stock
  rw [copyCost] at hsum ⊢
  omega

end

/-- `copyuvm` panics at a page that is not there. -/
def CopyPanic (pgdir : ℕ) (sz : BitVec 32) (m : Mem) (e : Panic) : Prop :=
  (e = .copyExist ∨ e = .copyPresent) ∧ ∃ k < pagesOf sz, present (pteAt m pgdir k) = false

variable [DecidableEq H]

/-- The loop of `copyuvm`, by induction on the rounds: the pages below `k` have been
copied. -/
theorem copyLoop_spec (hd : dirs' = update dirs h (some d)) (hnone : dirs h = none)
    (hne : h₀ ≠ h) (hd₀ : dirs h₀ = some pgdir) (hsz : sz.toNat ≤ 2 ^ 31) (n : ℕ)
    (hc : Copied lk others dirs dirs' loose h pgdir d k m₀ m) (ha : a.toNat = 4096 * k)
    (hk : k ≤ pagesOf sz) (hn : sz.toNat ≤ 4096 * (k + n)) :
    wp (copyLoop lk pgdir d sz n a) (fun r m' => match r with
      | none => Moves lk others (Place.held h) dirs dirs loose m₀ m' ∧
          m₀.stock < copyCost (pagesOf sz)
      | some d' => d' = d ∧ Copied lk others dirs dirs' loose h pgdir d (pagesOf sz) m₀ m')
      (fun e _ => CopyPanic pgdir sz m₀ e) m := by
  have hpages := pagesOf_le hsz
  have hd' : dirs' h = some d := by rw [hd, update_self]
  have hback : update dirs' h none = dirs := by
    rw [hd, update_idem, ← hnone, update_eq_self]
  induction n generalizing a m k with
  | zero =>
    have hend : ¬ k < pagesOf sz := by
      rw [pagesOf]
      omega
    rw [copyLoop, if_neg ((lt_pagesOf ha).not.2 hend)]
    obtain rfl : k = pagesOf sz := by omega
    exact ⟨rfl, hc⟩
  | succ n ih =>
    by_cases hlt : k < pagesOf sz
    swap
    · rw [copyLoop, if_neg ((lt_pagesOf ha).not.2 hlt)]
      obtain rfl : k = pagesOf sz := by omega
      exact ⟨rfl, hc⟩
    have hkdiv : a.toNat / 4096 = k := by omega
    have hdir : pdx a = dirIdx k := hkdiv ▸ pdx_eq a
    have htab : ptx a = tabIdx k := hkdiv ▸ ptx_eq a
    have hnext : (a + 4096).toNat = 4096 * (k + 1) := by
      rw [toNat_add_page (by omega)]
      omega
    -- the directory that is copied has not changed
    have hapart : ∀ q : Spot H O, q.holder = some h₀ → q ∉ Place.held h := by
      intro q hq hq'
      exact hne (Option.some.inj (hq.symm.trans hq'))
    obtain ⟨-, htables, hptes⟩ := hc.moves.same (fun q hq => hapart q hq.2) hd₀
    rw [copyLoop, if_pos ((lt_pagesOf ha).2 hlt), wp_bind, wp, walkpgdir_look, hdir, htab]
    cases ht : tableAt m pgdir (dirIdx k) with
    | none =>
      refine ⟨.inl rfl, k, hlt, ?_⟩
      rw [← hptes, pteAt_of_none ht, present_zero]
    | some t =>
      have hpte : m.pte t (tabIdx k) = pteAt m₀ pgdir k := by
        rw [← pteAt_of_table ht, hptes]
      simp only [Option.map_some, readPte, wp_bind, wp_look, wp_ite, hpte]
      refine ⟨fun habsent => ⟨.inr rfl, k, hlt, habsent⟩, fun hp => ?_⟩
      have hp : present (pteAt m₀ pgdir k) = true := Bool.eq_true_of_not_eq_false hp
      refine wp_mono_ok (kalloc_spec hc.moves.frames) ?_
      rintro (- | f) m₁ ⟨hpage, hs, hrest⟩
      · obtain ⟨hout, -, hf₁⟩ := hrest
        have hmoves₁ := (Moves.kalloc hpage hs hf₁ : Moves lk others (∅ : Set (Spot H O)) _ _ _ _ _)
        rw [wp_bind]
        refine wp_mono_ok (freevm_spec hf₁ hd') (fun _ m₂ hfree => ?_)
        rw [hback] at hfree
        refine ⟨(hc.moves.trans (hmoves₁.mono (Set.empty_subset _))).trans hfree, ?_⟩
        have hstock := hc.stock
        rw [copyCost] at hstock ⊢
        omega
      · obtain ⟨hstock, -, hnotLoose, hf₁⟩ := hrest
        have hmoves₁ := (Moves.kalloc hpage hs hf₁ : Moves lk others (∅ : Set (Spot H O)) _ _ _ _ _)
        have hmoves₂ := hmoves₁.trans (Moves.setLoose hf₁ (Set.mem_insert f loose)
          (m₁.page (pteFrame (pteAt m₀ pgdir k))))
        obtain ⟨-, htables₂, hptes₂⟩ := hmoves₂.same (notMem_empty_of_node h) hd'
        have habsent : present
            (pteAt (m₁.setPage f (m₁.page (pteFrame (pteAt m₀ pgdir k)))) d k) = false := by
          rw [hptes₂, hc.rest k le_rfl (by omega), present_zero]
        simp only [wp_bind, wp_update, wp_ite]
        refine wp_mono_ok (mapUser_spec hmoves₂.frames hd' ha (by omega) (toNat_pteFlags_lt _)
          habsent (Set.mem_insert f loose)) ?_
        rintro r m₃ ⟨hgrows, hsame, ⟨rfl, hmoves₃, -, hout, hnone₂, -⟩ |
          ⟨rfl, hspent₃, hmoves₃, hptes₃, htable₃⟩⟩
        · refine ⟨fun _ => ?_, fun hno => absurd (by decide) hno⟩
          refine wp_mono_ok (kfree_spec hmoves₃.frames (Set.mem_insert f loose)) ?_
          rintro _ m₄ ⟨hfree, -, -⟩
          rw [Set.insert_sdiff_self_of_notMem hnotLoose] at hfree
          refine wp_mono_ok (freevm_spec hfree.frames hd') (fun _ m₅ hdrop => ?_)
          rw [hback] at hdrop
          have hall := ((hmoves₂.mono (Set.empty_subset _)).trans hmoves₃).trans
            (hfree.mono (Set.empty_subset _))
          refine ⟨(hc.moves.trans (hall.mono (Place.nodes_subset_held h))).trans hdrop, ?_⟩
          exact hc.stock_lt (by omega) hlt ((htables₂ _).symm.trans hnone₂) (hstock.trans
            (congrArg Nat.succ hout))
        · rw [Set.insert_sdiff_self_of_notMem hnotLoose] at hmoves₃
          refine ⟨fun hno => absurd hno (by decide), fun _ => ?_⟩
          have howner : owner m₀ dirs others (.page h₀ (dirIdx k) (tabIdx k)) = _ :=
            owner_of_present hd₀ (by omega) hp
          have hcontents := (hc.moves.keeps _ (hapart _ rfl) _ howner).2
          have hmanaged := hf₁.managed_of_loose (Set.mem_insert f loose)
          have hspent₂ : Spent d 1 m (m₁.setPage f (m₁.page (pteFrame (pteAt m₀ pgdir k)))) :=
            Spent.of_eq htables₂ hstock.symm
          refine ih (hc.snoc hd' (by omega) hmanaged.lt
            ((hmoves₂.mono (Set.empty_subset _)).trans hmoves₃)
            ((Grows.of_eq htables₂).trans hgrows) htable₃ (hspent₂.trans hspent₃) ?_ ?_) hnext
            (by omega) (by omega)
          · rw [hsame f (Set.mem_insert f loose), page_setPage_self, hpage]
            exact hcontents
          · intro k' hk'
            rw [hptes₃ k' hk', hptes₂]

theorem copyuvm_spec (hf : Frames lk dirs others loose m) (hnone : dirs h = none)
    (hne : h₀ ≠ h) (hd₀ : dirs h₀ = some pgdir) (hsz : sz.toNat ≤ 2 ^ 31) :
    wp (copyuvm lk pgdir sz) (fun r m' => match r with
      | none => Moves lk others (Place.held h) dirs dirs loose m m' ∧
          m.stock < copyCost (pagesOf sz)
      | some d => Copied lk others dirs (update dirs h (some d)) loose h pgdir d
          (pagesOf sz) m m')
      (fun e _ => CopyPanic pgdir sz m e) m := by
  rw [copyuvm, wp_bind]
  refine wp_mono_ok (setupkvm_spec hf hnone) ?_
  rintro (- | d) m₁ hsetup
  · refine ⟨hsetup.1, ?_⟩
    rw [copyCost]
    omega
  · obtain ⟨hmoves, hkernel, hnotable, huser, hstock⟩ := hsetup
    refine wp_mono_post (copyLoop_spec rfl hnone hne hd₀ hsz _ ⟨hmoves, hkernel, fun i hi => ?_,
      show m.stock = m₁.stock + copyCost 0 from hstock, ?_, ?_⟩ rfl (Nat.zero_le _) ?_) ?_
    · exact iff_of_false (not_not.2 (hnotable i hi)) (Nat.not_lt_zero _)
    · exact fun k' hk' => absurd hk' (Nat.not_lt_zero k')
    · exact fun k' _ hk' => huser k' hk'
    · rw [pgSize]
      omega
    · rintro (- | d') m' hpost
      · exact hpost
      · obtain ⟨rfl, hcopied⟩ := hpost
        exact hcopied

end Copy

end Xv6.Vm
