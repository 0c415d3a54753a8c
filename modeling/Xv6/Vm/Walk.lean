import Xv6.Vm.Frames

/-!
# Walking and mapping

`walkpgdir` and what is done to the one entry that it finds. With `alloc` it may add a table
to the directory; no entry changes by that. `Grows` and `Spent` say which tables are new and
how many frames they took, so that it is known when a call fails.
-/

namespace Xv6.Vm

open Routine PageTable Function

variable {H O : Type} {lk : Link} {others : O → Option ℕ} {dirs : H → Option ℕ} {h : H}

variable {i : Fin nPdEntries}

/-- The directory in frame `d` keeps its tables, and has new ones at indices of `R` only. -/
structure Grows (d : ℕ) (R : Set (Fin nPdEntries)) (m m' : Mem) : Prop where
  old : ∀ i t, tableAt m d i = some t → tableAt m' d i = some t
  new : ∀ i, tableAt m' d i ≠ none → tableAt m d i ≠ none ∨ i ∈ R

def Spent (d n : ℕ) (m m' : Mem) : Prop :=
  m'.stock + (tables m' d).card + n = m.stock + (tables m d).card

section Relations

variable {d n n' : ℕ} {R R' : Set (Fin nPdEntries)} {m m' m'' : Mem}

theorem Grows.of_eq (h : ∀ i, tableAt m' d i = tableAt m d i) : Grows d R m m' :=
  ⟨fun i _ ht => (h i).trans ht, fun i hi => .inl (h i ▸ hi)⟩

theorem Grows.trans (h : Grows d R m m') (h' : Grows d R m' m'') : Grows d R m m'' := by
  refine ⟨fun i t ht => h'.old i t (h.old i t ht), fun i hi => ?_⟩
  rcases h'.new i hi with hi' | hi'
  · exact h.new i hi'
  · exact .inr hi'

theorem Grows.mono (h : Grows d R m m') (hR : R ⊆ R') : Grows d R' m m' :=
  ⟨h.old, fun i hi => (h.new i hi).imp_right fun hi' => hR hi'⟩

theorem Grows.ne_none (h : Grows d R m m') (hi : tableAt m d i ≠ none) : tableAt m' d i ≠ none := by
  obtain ⟨t, ht⟩ := Option.ne_none_iff_exists'.1 hi
  rw [h.old i t ht]
  exact Option.some_ne_none t

theorem tables_congr (h : ∀ i, tableAt m' d i = tableAt m d i) : tables m' d = tables m d := by
  simp only [tables, h]

theorem Spent.of_eq (h : ∀ i, tableAt m' d i = tableAt m d i)
    (hstock : m'.stock + n = m.stock) : Spent d n m m' := by
  rw [Spent, tables_congr h]
  omega

theorem Spent.trans (h : Spent d n m m') (h' : Spent d n' m' m'') : Spent d (n + n') m m'' := by
  rw [Spent] at h h' ⊢
  omega

theorem Spent.zero_trans (h : Spent d 0 m m') (h' : Spent d n m' m'') : Spent d n m m'' := by
  have hsum := h.trans h'
  rwa [Nat.zero_add] at hsum

theorem Grows.add {t : ℕ} (hnone : tableAt m d i = none)
    (h : ∀ i', tableAt m' d i' = if i' = i then some t else tableAt m d i') : Grows d {i} m m' := by
  refine ⟨fun i' t' ht' => ?_, fun i' hi' => ?_⟩
  · have hne : i' ≠ i := by
      rintro rfl
      simp [hnone] at ht'
    rw [h, if_neg hne, ht']
  · by_cases hii : i' = i
    · exact .inr hii
    · rw [h, if_neg hii] at hi'
      exact .inl hi'

theorem Grows.tables_eq (h : Grows d {i} m m') (hi : tableAt m d i ≠ none) :
    tables m' d = tables m d := by
  ext i'
  rw [mem_tables, mem_tables]
  refine ⟨fun hi' => ?_, h.ne_none⟩
  rcases h.new i' hi' with hold | rfl
  · exact hold
  · exact hi

theorem Grows.card_tables (h : Grows d {i} m m') (hnone : tableAt m d i = none)
    (hi : tableAt m' d i ≠ none) : (tables m' d).card = (tables m d).card + 1 := by
  have hnew : i ∉ tables m d := fun hmem => mem_tables.1 hmem hnone
  have htables : tables m' d = insert i (tables m d) := by
    ext i'
    rw [Finset.mem_insert, mem_tables, mem_tables]
    constructor
    · intro hi'
      exact (h.new i' hi').symm
    · rintro (rfl | hold)
      · exact hi
      · exact h.ne_none hold
  rw [htables, Finset.card_insert_of_notMem hnew]

theorem Spent.add {t : ℕ} (hnone : tableAt m d i = none)
    (h : ∀ i', tableAt m' d i' = if i' = i then some t else tableAt m d i')
    (hstock : m'.stock + 1 = m.stock) : Spent d 0 m m' := by
  have hself : tableAt m' d i ≠ none := by
    rw [h, if_pos rfl]
    exact Option.some_ne_none t
  rw [Spent, (Grows.add hnone h).card_tables hnone hself]
  omega

theorem card_tables_le (m : Mem) (d : ℕ) : (tables m d).card ≤ 1024 :=
  (Finset.card_le_univ _).trans_eq (Fintype.card_fin nPdEntries)

theorem Spent.short (h : Spent d n m m') (hout : m'.stock = 0) (hn : n ≤ n') :
    m.stock ≤ 1024 + n' := by
  have hcard := card_tables_le m' d
  rw [Spent] at h
  omega

end Relations

theorem walkpgdir_look (pgdir : ℕ) (va : BitVec 32) (m : Mem) :
    walkpgdir pgdir va false m =
      (.ok ((tableAt m pgdir (pdx va)).map fun t => (t, ptx va)), m) := by
  show (if present (m.pte pgdir (pdx va)) = true then _ else
    if false = false then _ else _ : VmM _) m = _
  rw [tableAt_eq, if_pos rfl]
  split_ifs <;> rfl

section Entry

variable [DecidableEq H] {loose loose' : Set ℕ} {m : Mem} {d k t : ℕ} {e : BitVec 32}

variable (hf : Frames lk dirs others loose m) (hd : dirs h = some d)

include hf hd in
omit [DecidableEq H] in
theorem tableAt_setPte (ht : tableAt m d (dirIdx k) = some t) (i : Fin nPdEntries) :
    tableAt (m.setPte t (tabIdx k) e) d i = tableAt m d i :=
  table_write hf.owned hd ht hd i

include hf hd in
theorem pteAt_setPte (hk : k < 2 ^ 20) (ht : tableAt m d (dirIdx k) = some t) {k' : ℕ}
    (hk' : k' < 2 ^ 20) :
    pteAt (m.setPte t (tabIdx k) e) d k' = if k' = k then e else pteAt m d k' := by
  have hentry := entry_write hf.owned hd ht (fun j => read_setU32 (m.page t) (tabIdx k) j e) hd
    (dirIdx k') (tabIdx k')
  by_cases hkk : k' = k
  · subst hkk
    rw [if_pos rfl]
    exact hentry.trans (if_pos ⟨rfl, rfl, rfl⟩)
  · rw [if_neg hkk]
    exact hentry.trans (if_neg fun hidx => hkk (eq_of_idx hk' hk hidx.2.1 hidx.2.2))

include hf hd in
theorem Moves.setPte {T : Set (Spot H O)} (ht : tableAt m d (dirIdx k) = some t)
    (hf' : Frames lk dirs others loose' (m.setPte t (tabIdx k) e)) (hT : Place.nodes h ⊆ T)
    (hleaf : .page h (dirIdx k) (tabIdx k) ∉ T →
      ∀ f, scheme.leaf (dirIdx k) (tabIdx k) (pteAt m d k) = some f →
        scheme.leaf (dirIdx k) (tabIdx k) e = some f) :
    Moves lk others T dirs dirs loose' m (m.setPte t (tabIdx k) e) := by
  have hread := fun j => read_setU32 (m.page t) (tabIdx k) j e
  have hself := ref_setEntry_self hf.owned hd ht hread
  refine ⟨hf', fun q hq f hqf => ⟨?_, ?_⟩, rfl⟩
  · by_cases hpage : q = .page h (dirIdx k) (tabIdx k)
    · subst hpage
      exact hself.trans (hleaf hq f ((owner_page hd k).symm.trans hqf))
    · have hother := ref_setEntry_of_ne hf.owned hd ht hread hpage
      exact hother.trans hqf
  · refine update_of_ne ?_ _ m.page
    rintro rfl
    have heq := hf.owned.inj q (.table h (dirIdx k)) _ hqf ((owner_table hd _).trans ht)
    exact hq (hT (heq ▸ ⟨trivial, rfl⟩))

omit [DecidableEq H] in
theorem leaf_of_absent (k : ℕ) (he : present e = false) :
    scheme.leaf (dirIdx k) (tabIdx k) e = none := by
  simp only [scheme, he, Bool.false_eq_true, and_false, if_false]

include hf hd in
/-- Store an entry where none was present. -/
theorem Moves.map (ht : tableAt m d (dirIdx k) = some t) (habsent : present (pteAt m d k) = false)
    (hclaim : ∀ f, scheme.leaf (dirIdx k) (tabIdx k) e = some f → f ∈ loose) :
    Moves lk others (Place.nodes h) dirs dirs
      (loose \ {f | scheme.leaf (dirIdx k) (tabIdx k) e = some f}) m
      (m.setPte t (tabIdx k) e) := by
  have hread := fun j => read_setU32 (m.page t) (tabIdx k) j e
  have hnone := leaf_of_absent k habsent
  refine Moves.setPte hf hd ht ⟨hf.nodup, hf.managed, ?_⟩ subset_rfl ?_
  · cases hleaf : scheme.leaf (dirIdx k) (tabIdx k) e with
    | none =>
      have hset : loose \ {f | none = some f} = loose := by simp
      rw [hset]
      exact owned_setEntry hf.owned hd ht hread (hleaf.trans hnone.symm)
    | some f =>
      have hset : loose \ {g | some f = some g} = loose \ {f} := by simp
      rw [hset]
      exact owned_link hf.owned hd ht hread hnone (hclaim f hleaf) hleaf
  · intro _ f hfound
    simp [hnone] at hfound

theorem next_pde {t : ℕ} (ht : t < 2 ^ 20) :
    scheme.next (frameAddr t ||| pteP ||| pteW ||| pteU) = some t := by
  have hpresent : present (frameAddr t ||| pteP ||| pteW ||| pteU) = true := by
    have hbit : pteP.getLsbD 0 = true := by decide
    simp only [present, BitVec.getLsbD_or, hbit, Bool.or_true, Bool.true_or]
  show (if present _ = true then some (pteFrame _) else none) = some t
  rw [if_pos hpresent, pteFrame_or _ (by decide), pteFrame_or _ (by decide),
    pteFrame_or _ (by decide), pteFrame_frameAddr ht]

include hf hd in
/-- Store the directory entry for a new table. -/
theorem Moves.addTable (hnone : tableAt m d i = none) (ht : t ∈ loose)
    (hempty : ∀ j, scheme.read (m.page t) j = 0) :
    Moves lk others (Place.nodes h) dirs dirs (loose \ {t}) m
        (m.setPte d i (frameAddr t ||| pteP ||| pteW ||| pteU)) ∧
      (∀ k, pteAt (m.setPte d i (frameAddr t ||| pteP ||| pteW ||| pteU)) d k = pteAt m d k) ∧
      ∀ i', tableAt (m.setPte d i (frameAddr t ||| pteP ||| pteW ||| pteU)) d i' =
        if i' = i then some t else tableAt m d i' := by
  have hread := fun j =>
    read_setU32 (m.page d) i j (frameAddr t ||| pteP ||| pteW ||| pteU)
  have hnext := next_pde (hf.managed_of_loose ht).lt
  have hown := owned_setTable hf.owned hd hnone hread hnext ht hempty
  obtain ⟨htables, hentries⟩ := read_setTable hf.owned hd hnone hread hnext ht hempty hd
  refine ⟨⟨⟨hf.nodup, hf.managed, hown⟩, fun q hq f hqf => ?_, rfl⟩,
    fun k => hentries (dirIdx k) (tabIdx k), fun i' => ?_⟩
  · have hne : f ≠ d := by
      rintro rfl
      have heq := hf.owned.inj q (.dir h) f hqf hd
      exact hq (heq ▸ ⟨trivial, rfl⟩)
    have htable : q ≠ .table h i := fun heq => hq (heq ▸ ⟨trivial, rfl⟩)
    refine ⟨?_, update_of_ne hne _ m.page⟩
    have hkept := ref_setTable_of_ne hf.owned hd hnone hread hnext ht hempty htable
    exact hkept.trans hqf
  · have htable := htables i'
    simp only [true_and] at htable
    exact htable

end Entry

section Mapping

variable [DecidableEq H] {loose : Set ℕ} {m : Mem} {d k : ℕ} {a pte : BitVec 32}

omit [DecidableEq H] in
theorem notMem_empty_of_node (h : H) (q : Spot H O) (_ : q ∈ Place.nodes h) :
    q ∉ (∅ : Set (Spot H O)) := Set.notMem_empty q

variable (hf : Frames lk dirs others loose m) (hd : dirs h = some d) (hk : a.toNat / 4096 = k)
include hf hd hk

/-- `walkpgdir` with `alloc` finds the entry or adds an empty table for it. -/
theorem walkpgdir_alloc :
    wp (walkpgdir d a true) (fun r m' =>
      Moves lk others (Place.nodes h) dirs dirs loose m m' ∧
        (∀ k, pteAt m' d k = pteAt m d k) ∧ Grows d {dirIdx k} m m' ∧
        (∀ g ∈ loose, m'.page g = m.page g) ∧
        match r with
        | none => m.stock = 0 ∧ tableAt m d (dirIdx k) = none ∧ ∀ i, tableAt m' d i = tableAt m d i
        | some (t, j) => Spent d 0 m m' ∧ j = tabIdx k ∧ tableAt m' d (dirIdx k) = some t)
      (fun _ _ => False) m := by
  have hdir : pdx a = dirIdx k := hk ▸ pdx_eq a
  have htab : ptx a = tabIdx k := hk ▸ ptx_eq a
  simp only [walkpgdir, readPte, wp_bind, wp_look, wp_ite, hdir, htab]
  refine ⟨fun hp => ?_, fun hp => ⟨fun halloc => absurd halloc (by decide), fun _ => ?_⟩⟩
  · refine ⟨Moves.refl hf, fun _ => rfl, Grows.of_eq fun _ => rfl, fun _ _ => rfl,
      Spent.of_eq (fun _ => rfl) rfl, rfl, ?_⟩
    rw [tableAt_eq, if_pos hp]
  · have hnone : tableAt m d (dirIdx k) = none := by rw [tableAt_eq, if_neg hp]
    refine wp_mono_ok (kalloc_spec hf) ?_
    rintro (- | t) m₁ ⟨hpage, hs, hrest⟩
    · obtain ⟨hout, -, hf₁⟩ := hrest
      have hmoves := (Moves.kalloc hpage hs hf₁ : Moves lk others (∅ : Set (Spot H O)) _ _ _ _ _)
      obtain ⟨-, htables, hptes⟩ := hmoves.same (notMem_empty_of_node h) hd
      exact ⟨hmoves.mono (Set.empty_subset _), hptes, Grows.of_eq htables,
        fun g _ => congrFun hpage g, hout, hnone, htables⟩
    · obtain ⟨hstock, -, hnew, hf₁⟩ := hrest
      -- the new frame is cleared while it is loose, and then becomes a table
      have hmoves₁ := (Moves.kalloc hpage hs hf₁ : Moves lk others (∅ : Set (Spot H O)) _ _ _ _ _)
      have hmoves₂ := hmoves₁.trans (Moves.setLoose hf₁ (Set.mem_insert t loose) fun _ => 0)
      obtain ⟨-, htables, hptes⟩ := hmoves₂.same (notMem_empty_of_node h) hd
      have hempty : ∀ j, scheme.read ((m₁.setPage t fun _ => 0).page t) j = 0 := by
        intro j
        rw [page_setPage_self, read_fill_zero]
      obtain ⟨hmoves₃, hptes₃, htables₃⟩ := Moves.addTable hmoves₂.frames hd
        ((htables _).trans hnone) (Set.mem_insert t loose) hempty
      rw [Set.insert_sdiff_self_of_notMem hnew] at hmoves₃
      simp only [htables] at htables₃
      refine ⟨(hmoves₂.mono (Set.empty_subset _)).trans hmoves₃,
        fun k => (hptes₃ k).trans (hptes k), Grows.add hnone htables₃, fun g hg => ?_,
        Spent.add hnone htables₃ hstock.symm, rfl, (htables₃ _).trans (if_pos rfl)⟩
      · have hgt : g ≠ t := fun h => hnew (h ▸ hg)
        have hgd : g ≠ d := fun h => hf.owned.unowned g hg (.dir _) (h ▸ hd)
        simp only [Mem.setPte, Mem.setPage, update_of_ne hgd, update_of_ne hgt, hpage]

theorem mapPage_spec (habsent : present (pteAt m d k) = false)
    (hclaim : ∀ f, scheme.leaf (dirIdx k) (tabIdx k) pte = some f → f ∈ loose) :
    wp (mapPage d a pte) (fun r m' => Grows d {dirIdx k} m m' ∧
      (∀ g ∈ loose, m'.page g = m.page g) ∧
      (r = false ∧ Moves lk others (Place.nodes h) dirs dirs loose m m' ∧
          (∀ k', pteAt m' d k' = pteAt m d k') ∧ m.stock = 0 ∧ tableAt m d (dirIdx k) = none ∧
          (∀ i, tableAt m' d i = tableAt m d i) ∨
        r = true ∧ Spent d 0 m m' ∧ Moves lk others (Place.nodes h) dirs dirs
            (loose \ {f | scheme.leaf (dirIdx k) (tabIdx k) pte = some f}) m m' ∧
          (∀ k' < 2 ^ 20, pteAt m' d k' = if k' = k then pte else pteAt m d k') ∧
          tableAt m' d (dirIdx k) ≠ none)) (fun _ _ => False) m := by
  have hk20 : k < 2 ^ 20 := by
    omega
  rw [mapPage, wp_bind]
  refine wp_mono_ok (walkpgdir_alloc hf hd hk) ?_
  rintro (- | ⟨t, j⟩) m₁ ⟨hmoves, hptes, hgrows, hsame, hrest⟩
  · exact ⟨hgrows, hsame, .inl ⟨rfl, hmoves, hptes, hrest⟩⟩
  · obtain ⟨hspent, rfl, ht⟩ := hrest
    have hold : present (m₁.pte t (tabIdx k)) = false := by
      rw [← pteAt_of_table ht, hptes k]
      exact habsent
    have habsent₁ : present (pteAt m₁ d k) = false := by rw [hptes k, habsent]
    have hmap := Moves.map hmoves.frames hd ht habsent₁ hclaim
    have htables := fun i => tableAt_setPte (e := pte) hmoves.frames hd ht i
    simp only [readPte, writePte, wp_bind, wp_look, wp_ite, hold]
    refine ⟨fun hp => absurd hp (by decide), fun _ => ?_⟩
    refine ⟨hgrows.trans (Grows.of_eq htables), fun g hg => ?_, .inr ⟨rfl,
      hspent.zero_trans (Spent.of_eq htables rfl), hmoves.trans hmap, fun k' hk' => ?_, ?_⟩⟩
    · have hgt : g ≠ t := fun heq => hmoves.frames.owned.unowned g hg (.table h (dirIdx k))
        ((owner_table hd _).trans (heq ▸ ht))
      exact (update_of_ne hgt _ m₁.page).trans (hsame g hg)
    · rw [pteAt_setPte hmoves.frames hd hk20 ht hk', hptes k']
    · rw [htables, ht]
      exact Option.some_ne_none t

end Mapping

end Xv6.Vm
