import Mathlib.Data.Set.BooleanAlgebra
import Mathlib.Order.CompletePartialOrder
import Xv6.Vm.Resize

/-!
# The kernel half of a directory

The parts of `kmap` are ranges of whole pages of the kernel half that do not meet, so that
`mapKernel` on a directory without entries finds every page absent. It needs one table for
each 4 MB that `kmap` touches, and fails when a table cannot be had.
-/

namespace Xv6.Vm

open Routine PageTable BitVec Set

variable {H O : Type} {lk : Link} {others : O → Option ℕ} {dirs : H → Option ℕ} {loose : Set ℕ}
  {m m' : Mem} {h : H}

def kernelIdx : Finset (Fin nPdEntries) :=
  Finset.univ.filter fun i => 512 ≤ i.val ∧ (i.val < 568 ∨ 1016 ≤ i.val)

theorem card_kernelIdx : kernelIdx.card = 64 := by decide +kernel

/-- The kernel half of a directory: tables for `kmap` only, and no entry for users. -/
structure KernelPart (m : Mem) (d : ℕ) : Prop where
  table : ∀ i : Fin nPdEntries, 512 ≤ i.val → (tableAt m d i ≠ none ↔ i ∈ kernelIdx)
  user : ∀ k, 2 ^ 19 ≤ k → k < 2 ^ 20 → user (pteAt m d k) = false

theorem KernelPart.congr {m m' : Mem} {d : ℕ} (h : KernelPart m d) (hgrows : Grows d userHalf m m')
    (hpte : ∀ k, 2 ^ 19 ≤ k → k < 2 ^ 20 → pteAt m' d k = pteAt m d k) : KernelPart m' d := by
  refine ⟨fun i hi => ?_, fun k hlo hhi => by rw [hpte k hlo hhi, h.user k hlo hhi]⟩
  rw [← h.table i hi]
  refine ⟨fun hne => (hgrows.new i hne).resolve_right fun huser => ?_, hgrows.ne_none⟩
  exact absurd (show i.val < 512 from huser) (by omega)

section Kernel

variable [DecidableEq H] {d k : ℕ} {a pa perm last : BitVec 32}

/-- The pages of `P` have been mapped for the kernel, or, when this is not `done`, some of
them. -/
structure KMapped (lk : Link) (others : O → Option ℕ) (dirs : H → Option ℕ) (loose : Set ℕ)
    (h : H) (d : ℕ) (P : Set ℕ) (m m' : Mem) (done : Prop) : Prop where
  moves : Moves lk others (Place.nodes h) dirs dirs loose m m'
  grows : Grows d {i | ∃ k ∈ P, dirIdx k = i} m m'
  other : ∀ k < 2 ^ 20, k ∉ P → pteAt m' d k = pteAt m d k
  spent : done → Spent d 0 m m'
  mapped : done → ∀ k ∈ P, tableAt m' d (dirIdx k) ≠ none ∧ user (pteAt m' d k) = false
  failed : ¬ done → m.stock + (tables m d).card = (tables m' d).card ∧
    ∃ k ∈ P, tableAt m' d (dirIdx k) = none

variable {m₁ : Mem} {P Q : Set ℕ} {first done : Prop}

omit [DecidableEq H] in
theorem KMapped.congr (hk : KMapped lk others dirs loose h d P m m' first)
    (hiff : done ↔ first) : KMapped lk others dirs loose h d P m m' done :=
  ⟨hk.moves, hk.grows, hk.other, fun hdone => hk.spent (hiff.1 hdone),
    fun hdone => hk.mapped (hiff.1 hdone), fun hno => hk.failed (hiff.not.1 hno)⟩

omit [DecidableEq H] in
theorem KMapped.union (hP : ∀ k ∈ P, k < 2 ^ 20) (hyes : first)
    (hfirst : KMapped lk others dirs loose h d P m m₁ first)
    (hrest : KMapped lk others dirs loose h d Q m₁ m' done) :
    KMapped lk others dirs loose h d (P ∪ Q) m m' done := by
  have hspent := hfirst.spent hyes
  refine ⟨hfirst.moves.trans hrest.moves, (hfirst.grows.mono ?_).trans (hrest.grows.mono ?_),
    fun k hk hout => ?_, fun hdone => hspent.zero_trans (hrest.spent hdone), fun hdone k hk => ?_,
    fun hno => ?_⟩
  · exact fun i ⟨k, hk, hi⟩ => ⟨k, .inl hk, hi⟩
  · exact fun i ⟨k, hk, hi⟩ => ⟨k, .inr hk, hi⟩
  · rw [hrest.other k hk fun hQ => hout (.inr hQ), hfirst.other k hk fun hP => hout (.inl hP)]
  · by_cases hQ : k ∈ Q
    · exact hrest.mapped hdone k hQ
    · have hkP := hk.resolve_right hQ
      obtain ⟨htable, huser⟩ := hfirst.mapped hyes k hkP
      exact ⟨hrest.grows.ne_none htable, by rw [hrest.other k (hP k hkP) hQ, huser]⟩
  · obtain ⟨hcard, k, hk, hnone⟩ := hrest.failed hno
    rw [Spent] at hspent
    exact ⟨by omega, k, .inr hk, hnone⟩

omit [DecidableEq H] in
theorem KMapped.stop (hPQ : P ⊆ Q) (hnot : ¬ first)
    (hfirst : KMapped lk others dirs loose h d P m m₁ first) (hno : ¬ done) :
    KMapped lk others dirs loose h d Q m m₁ done :=
  ⟨hfirst.moves, hfirst.grows.mono fun _ ⟨k, hk, hi⟩ => ⟨k, hPQ hk, hi⟩,
    fun k hk hout => hfirst.other k hk fun hP => hout (hPQ hP), fun hdone => absurd hdone hno,
    fun hdone => absurd hdone hno,
    fun _ => (hfirst.failed hnot).imp_right fun ⟨k, hk, hnone⟩ => ⟨k, hPQ hk, hnone⟩⟩

theorem mapPage_kernel (hf : Frames lk dirs others loose m) (hd : dirs h = some d)
    (ha : a.toNat = 4096 * k) (hlo : 2 ^ 19 ≤ k) (huser : user perm = false)
    (hpa : pa.toNat % 4096 = 0) (habsent : present (pteAt m d k) = false) :
    wp (mapPage d a (pa ||| perm ||| pteP)) (fun r m' =>
      KMapped lk others dirs loose h d {k} m m' (r = true)) (fun _ _ => False) m := by
  have hleaf := leaf_kernel hlo (by omega) (pa ||| perm ||| pteP)
  have hset : loose \ {f | scheme.leaf (dirIdx k) (tabIdx k) (pa ||| perm ||| pteP) = some f} =
      loose := by
    rw [hleaf]
    simp
  have hidx : ({dirIdx k} : Set (Fin nPdEntries)) ⊆ {i | ∃ k' ∈ ({k} : Set ℕ), dirIdx k' = i} := by
    rintro i rfl
    exact ⟨k, rfl, rfl⟩
  refine wp_mono_ok (mapPage_spec hf hd (by omega) habsent ?_) ?_
  · intro f hfound
    simp [hleaf] at hfound
  rintro r m' ⟨hgrows, -, ⟨rfl, hmoves, hptes, hout, hnone, htables⟩ |
    ⟨rfl, hspent, hmoves, hptes, htable⟩⟩
  · refine ⟨hmoves, hgrows.mono hidx, fun k' _ _ => hptes k', fun hdone => absurd hdone (by decide),
      fun hdone => absurd hdone (by decide), fun _ => ⟨?_, k, rfl, by rw [htables, hnone]⟩⟩
    rw [tables_congr htables, hout, Nat.zero_add]
  · rw [hset] at hmoves
    refine ⟨hmoves, hgrows.mono hidx, fun k' hk' hout => ?_, fun _ => hspent, fun _ k' hk' => ?_,
      fun hno => absurd rfl hno⟩
    · rw [hptes k' hk', if_neg (mem_singleton_iff.not.1 hout)]
    · obtain rfl := mem_singleton_iff.1 hk'
      rw [hptes k' (by omega), if_pos rfl, user_map hpa]
      exact ⟨htable, huser⟩

/-- The loop of `mappages` in the kernel half, by induction on the pages after the first. -/
theorem mapLoop_spec (hd : dirs h = some d) (huser : user perm = false) (n : ℕ)
    (hf : Frames lk dirs others loose m) (ha : a.toNat = 4096 * k)
    (hlast : last.toNat = 4096 * (k + n)) (hlo : 2 ^ 19 ≤ k) (hhi : k + n < 2 ^ 20)
    (hpa : pa.toNat % 4096 = 0)
    (habsent : ∀ k' ∈ Set.Icc k (k + n), present (pteAt m d k') = false) :
    wp (mapLoop d last perm (n + 1) a pa) (fun r m' => (r = 0 ∨ r = -1) ∧
      KMapped lk others dirs loose h d (Set.Icc k (k + n)) m m' (r = 0)) (fun _ _ => False) m := by
  induction n generalizing a pa m k with
  | zero =>
    have heq : a = last := eq_of_toNat_eq (by omega)
    have hset : Set.Icc k (k + 0) = {k} := by
      ext k'
      simp only [mem_Icc, mem_singleton_iff]
      omega
    rw [hset] at habsent ⊢
    rw [mapLoop, wp_bind]
    refine wp_mono_ok (mapPage_kernel hf hd ha hlo huser hpa (habsent k rfl)) ?_
    rintro (- | -) m₁ hfirst
    · exact ⟨.inr rfl, hfirst.congr (by decide)⟩
    · rw [if_neg (by decide), if_pos heq]
      exact ⟨.inl rfl, hfirst.congr (by decide)⟩
  | succ n ih =>
    have hne : a ≠ last := by
      rintro rfl
      omega
    have hnext : (a + 4096).toNat = 4096 * (k + 1) := by
      rw [toNat_add_page (by omega)]
      omega
    have hpa' : (pa + 4096).toNat % 4096 = 0 := by
      have hpage : (4096 : BitVec 32).toNat = 4096 := rfl
      rw [toNat_add, hpage]
      omega
    have hset : Set.Icc k (k + (n + 1)) = {k} ∪ Set.Icc (k + 1) (k + 1 + n) := by
      ext k'
      simp only [mem_Icc, mem_union, mem_singleton_iff]
      omega
    rw [hset] at habsent ⊢
    rw [mapLoop, wp_bind]
    refine wp_mono_ok (mapPage_kernel hf hd ha hlo huser hpa (habsent k (.inl rfl))) ?_
    rintro (- | -) m₁ hfirst
    · exact ⟨.inr rfl, KMapped.stop subset_union_left (by decide) hfirst (by decide)⟩
    · rw [if_neg (by decide), if_neg hne]
      refine wp_mono_ok (ih hfirst.moves.frames hnext (by omega) (by omega) (by omega) hpa' ?_) ?_
      · intro k' hk'
        obtain ⟨hlo', hhi'⟩ := mem_Icc.1 hk'
        rw [hfirst.other k' (by omega) (show k' ≠ k by omega)]
        exact habsent k' (.inr hk')
      · rintro r m' ⟨hr, hrest⟩
        refine ⟨hr, KMapped.union ?_ rfl hfirst hrest⟩
        rintro k' rfl
        omega

end Kernel

section Regions

variable [DecidableEq H] {d : ℕ} {e : KMap}

/-- A part of `kmap` that `mappages` can map. -/
structure KMap.Ok (e : KMap) : Prop where
  virt : e.virt.toNat % 4096 = 0
  size : (e.physEnd - e.physStart).toNat % 4096 = 0
  pos : 0 < (e.physEnd - e.physStart).toNat
  kernel : 2 ^ 31 ≤ e.virt.toNat
  fits : e.virt.toNat + (e.physEnd - e.physStart).toNat ≤ 2 ^ 32
  phys : e.physStart.toNat % 4096 = 0
  perm : user e.perm = false

def KMap.pages (e : KMap) : Set ℕ :=
  {k | e.virt.toNat ≤ 4096 * k ∧ 4096 * k < e.virt.toNat + (e.physEnd - e.physStart).toNat}

theorem mappages_kernel (he : e.Ok) (hf : Frames lk dirs others loose m) (hd : dirs h = some d)
    (habsent : ∀ k ∈ e.pages, present (pteAt m d k) = false) :
    wp (mappages d e.virt (e.physEnd - e.physStart) e.physStart e.perm) (fun r m' =>
      (r = 0 ∨ r = -1) ∧ KMapped lk others dirs loose h d e.pages m m' (r = 0))
      (fun _ _ => False) m := by
  obtain ⟨hvirt, hsize, hpos, hkernel, hfits, hphys, hperm⟩ := he
  generalize hs : e.physEnd - e.physStart = size at hsize hpos hfits ⊢
  have hone : (1 : BitVec 32).toNat = 1 := rfl
  have hfirst : pgRoundDown e.virt = e.virt := by
    apply eq_of_toNat_eq
    rw [toNat_pgRoundDown]
    omega
  have hend : (e.virt + size - 1).toNat = e.virt.toNat + size.toNat - 1 := by
    rw [toNat_sub, toNat_add, hone]
    omega
  obtain ⟨k, hk⟩ : ∃ k, e.virt.toNat = 4096 * k := ⟨e.virt.toNat / 4096, by omega⟩
  obtain ⟨n, hn⟩ : ∃ n, size.toNat = 4096 * (n + 1) := ⟨size.toNat / 4096 - 1, by omega⟩
  have hlast : (pgRoundDown (e.virt + size - 1)).toNat = 4096 * (k + n) := by
    rw [toNat_pgRoundDown, hend]
    omega
  have hrounds : (pgRoundDown (e.virt + size - 1) - e.virt).toNat / pgSize + 1 = n + 1 := by
    rw [toNat_sub, hlast, hk, pgSize]
    omega
  have hpages : e.pages = Set.Icc k (k + n) := by
    ext k'
    simp only [KMap.pages, hs, mem_ofPred_eq, mem_Icc]
    omega
  rw [hpages] at habsent ⊢
  simp only [mappages, hfirst, hrounds]
  exact mapLoop_spec hd hperm n hf hk hlast (by omega) (by omega) hphys habsent

/-- The loop of `setupkvm`, over parts that are in order. -/
theorem mapKernel_spec (es : List KMap) (hok : ∀ e ∈ es, e.Ok)
    (horder : es.Pairwise fun e e' => Disjoint e.pages e'.pages)
    (hf : Frames lk dirs others loose m) (hd : dirs h = some d)
    (habsent : ∀ e ∈ es, ∀ k ∈ e.pages, present (pteAt m d k) = false) :
    wp (mapKernel d es) (fun r m' =>
      KMapped lk others dirs loose h d {k | ∃ e ∈ es, k ∈ e.pages} m m' (r = true))
      (fun _ _ => False) m := by
  induction es generalizing m with
  | nil =>
    refine ⟨Moves.refl hf, Grows.of_eq fun _ => rfl, fun _ _ _ => rfl,
      fun _ => Spent.of_eq (fun _ => rfl) rfl,
      fun _ k ⟨e, he, _⟩ => absurd he List.not_mem_nil, fun hno => ?_⟩
    exact absurd rfl hno
  | cons e es ih =>
    obtain ⟨hoke, hokes⟩ := List.forall_mem_cons.1 hok
    obtain ⟨hdis, horder⟩ := List.pairwise_cons.1 horder
    have hP : ∀ k ∈ e.pages, k < 2 ^ 20 := by
      intro k hk
      have hfits := hoke.fits
      have hlt := hk.2
      omega
    have hset : {k | ∃ e' ∈ e :: es, k ∈ e'.pages} = e.pages ∪ {k | ∃ e' ∈ es, k ∈ e'.pages} := by
      ext k
      simp
    rw [hset, mapKernel, wp_bind]
    refine wp_mono_ok (mappages_kernel hoke hf hd (habsent e List.mem_cons_self)) ?_
    rintro r m₁ ⟨rfl | rfl, hfirst⟩
    · refine wp_mono_ok (ih hokes horder hfirst.moves.frames ?_) fun r m' hrest =>
        KMapped.union hP rfl hfirst hrest
      intro e' he' k hk
      have hlt : k < 2 ^ 20 := by
        have hfits := (hokes e' he').fits
        have hlt := hk.2
        omega
      rw [hfirst.other k hlt fun hke => disjoint_left.1 (hdis e' he') hke hk]
      exact habsent e' (List.mem_cons_of_mem e he') k hk
    · exact KMapped.stop subset_union_left (by decide) hfirst (by decide)

def kernelPages : Set ℕ := {k | 0x80000 ≤ k ∧ k < 0x8E000 ∨ 0xFE000 ≤ k ∧ k < 2 ^ 20}

theorem Link.data_bounds (lk : Link) : 0x80100000 < lk.data.toNat ∧ lk.data.toNat < 0x80400000 := by
  have htext := lt_def.1 lk.text
  have hordered := le_def.1 lk.ordered
  have hsmall := lt_def.1 lk.small
  have hlink : kernLink.toNat = 0x80100000 := rfl
  have htop : (p2v 0x400000).toNat = 0x80400000 := rfl
  omega

theorem toNat_text (lk : Link) :
    (v2p lk.data - v2p kernLink).toNat = lk.data.toNat - 0x80100000 := by
  obtain ⟨hlo, hhi⟩ := lk.data_bounds
  have hlink : (v2p kernLink).toNat = 0x100000 := rfl
  rw [toNat_sub, hlink, v2p, toNat_sub, toNat_kernBase]
  omega

theorem toNat_memory (lk : Link) : (physTop - v2p lk.data).toNat = 0x8E000000 - lk.data.toNat := by
  obtain ⟨hlo, hhi⟩ := lk.data_bounds
  have htop : physTop.toNat = 0xE000000 := rfl
  rw [toNat_sub, htop, v2p, toNat_sub, toNat_kernBase]
  omega

theorem kmap_ok (lk : Link) : ∀ e ∈ kmap lk, e.Ok := by
  obtain ⟨hlo, hhi⟩ := lk.data_bounds
  have haligned : lk.data.toNat % 4096 = 0 := lk.aligned
  have hlink : kernLink.toNat = 0x80100000 := rfl
  have hphys : (v2p lk.data).toNat = lk.data.toNat - 0x80000000 := by
    rw [v2p, toNat_sub, toNat_kernBase]
    omega
  have htext := toNat_text lk
  have hmemory := toNat_memory lk
  simp only [kmap, List.forall_mem_cons, List.not_mem_nil, IsEmpty.forall_iff, implies_true,
    and_true]
  refine ⟨⟨?_, ?_, ?_, ?_, ?_, ?_, ?_⟩, ⟨?_, ?_, ?_, ?_, ?_, ?_, ?_⟩, ⟨?_, ?_, ?_, ?_, ?_, ?_, ?_⟩,
    ⟨?_, ?_, ?_, ?_, ?_, ?_, ?_⟩⟩
  all_goals
    dsimp only
    first
      | decide
      | omega

theorem kmap_pages (lk : Link) : {k | ∃ e ∈ kmap lk, k ∈ e.pages} = kernelPages := by
  obtain ⟨hlo, hhi⟩ := lk.data_bounds
  have hbase : kernBase.toNat = 0x80000000 := rfl
  have hio : (extMem - 0).toNat = 0x100000 := rfl
  have hlink : kernLink.toNat = 0x80100000 := rfl
  have hdev : devSpace.toNat = 0xFE000000 := rfl
  have hdevSize : (0 - devSpace).toNat = 0x2000000 := rfl
  ext k
  simp only [kmap, kernelPages, KMap.pages, List.mem_cons, List.not_mem_nil, or_false,
    exists_eq_or_imp, exists_eq_left, mem_ofPred_eq, toNat_text, toNat_memory, hbase, hio,
    hlink, hdev, hdevSize]
  omega

theorem kmap_disjoint (lk : Link) : (kmap lk).Pairwise fun e e' => Disjoint e.pages e'.pages := by
  obtain ⟨hlo, hhi⟩ := lk.data_bounds
  have hbase : kernBase.toNat = 0x80000000 := rfl
  have hio : (extMem - 0).toNat = 0x100000 := rfl
  have hlink : kernLink.toNat = 0x80100000 := rfl
  have hdev : devSpace.toNat = 0xFE000000 := rfl
  simp only [kmap, List.pairwise_cons, List.mem_cons, List.not_mem_nil, or_false,
    forall_eq_or_imp, forall_eq, IsEmpty.forall_iff, implies_true, and_true, List.Pairwise.nil,
    disjoint_left, KMap.pages, mem_ofPred_eq, toNat_text, toNat_memory, hbase, hio, hlink,
    hdev]
  refine ⟨⟨?_, ?_, ?_⟩, ⟨?_, ?_⟩, ?_⟩
  all_goals
    omega

end Regions

end Xv6.Vm
