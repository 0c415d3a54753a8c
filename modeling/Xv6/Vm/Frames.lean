import Xv6.Vm.Pte

/-!
# Frames and their owners

`Frames` says that the frames of `kfree` are on the free list once and owned by no place, or
not on it and owned by exactly one place or loose, for directories of any holders and any
other owners. `Moves` is what a function of `vm.c` may do to it. The functions that work on
one frame or one entry are specified here; the directory that they work on is that of a
holder, and all others are kept.
-/

namespace Xv6.Vm

open Routine PageTable Ownership Function List

variable {H O : Type} {lk : Link} {others : O → Option ℕ} {h : H}

section Owners

abbrev Spot (H O : Type) := Place H (Fin nPdEntries) O

abbrev world (m : Mem) (dirs : H → Option ℕ) (others : O → Option ℕ) :
    World (ByteBlock pgSize) ℕ H O := ⟨m.page, dirs, others⟩

abbrev owner (m : Mem) (dirs : H → Option ℕ) (others : O → Option ℕ) : Spot H O → Option ℕ :=
  ref scheme (world m dirs others)

/-- Every frame of `kfree` is on the free list, once, or is loose or owned by one place. -/
structure Frames (lk : Link) (dirs : H → Option ℕ) (others : O → Option ℕ) (loose : Set ℕ)
    (m : Mem) : Prop where
  nodup : m.freelist.Nodup
  managed : ∀ f ∈ m.freelist, lk.Managed f
  owned : Owned {f | lk.Managed f ∧ f ∉ m.freelist} loose (owner m dirs others)

/-- A call that only touches the places of `T` and leaves the frames `loose`. -/
structure Moves (lk : Link) (others : O → Option ℕ) (T : Set (Spot H O))
    (dirs dirs' : H → Option ℕ) (loose : Set ℕ) (m m' : Mem) : Prop where
  frames : Frames lk dirs' others loose m'
  keeps : Keeps scheme T (world m dirs others) (world m' dirs' others)
  refuse : m'.refuse = m.refuse

variable {dirs dirs' dirs'' : H → Option ℕ} {loose loose' : Set ℕ} {T T' : Set (Spot H O)}
  {m m' m'' : Mem} {d f k : ℕ}

theorem Moves.refl (hf : Frames lk dirs others loose m) : Moves lk others T dirs dirs loose m m :=
  ⟨hf, Keeps.refl _, rfl⟩

theorem Moves.trans (h : Moves lk others T dirs dirs' loose m m')
    (h' : Moves lk others T dirs' dirs'' loose' m' m'') :
    Moves lk others T dirs dirs'' loose' m m'' :=
  ⟨h'.frames, h.keeps.trans h'.keeps, h'.refuse.trans h.refuse⟩

theorem Moves.mono (h : Moves lk others T dirs dirs' loose m m') (hT : T ⊆ T') :
    Moves lk others T' dirs dirs' loose m m' := ⟨h.frames, h.keeps.mono hT, h.refuse⟩

theorem Moves.same (hm : Moves lk others T dirs dirs' loose m m')
    (hT : ∀ q ∈ Place.nodes h, q ∉ T) (hd : dirs h = some d) :
    dirs' h = some d ∧ (∀ i, tableAt m' d i = tableAt m d i) ∧
      ∀ k, pteAt m' d k = pteAt m d k := by
  obtain ⟨hd', hsame⟩ := hm.keeps.same hT hd
  exact ⟨hd', hsame.table, fun k => hsame.entry (dirIdx k) (tabIdx k)⟩

theorem Link.Managed.lt {lk : Link} (h : lk.Managed f) : f < 2 ^ 20 := by
  have htop : pgSize * f < 0xE000000 := h.2
  rw [pgSize] at htop
  omega

theorem Link.Managed.ne_zero {lk : Link} (h : lk.Managed f) : f ≠ 0 := by
  rintro rfl
  have htext := BitVec.lt_def.1 lk.text
  have hordered := BitVec.le_def.1 lk.ordered
  have hend := h.1
  have hlink : kernLink.toNat = 0x80100000 := rfl
  rw [toNat_kernBase, Nat.mul_zero] at hend
  omega

theorem Frames.managed_of_owner (hf : Frames lk dirs others loose m) {q : Spot H O}
    (hq : owner m dirs others q = some f) : lk.Managed f := (hf.owned.used_of_ref hq).1

theorem Frames.managed_of_loose (hf : Frames lk dirs others loose m) (h : f ∈ loose) :
    lk.Managed f := (hf.owned.used_of_loose h).1

theorem owner_table (hd : dirs h = some d) (i : Fin nPdEntries) :
    owner m dirs others (.table h i) = tableAt m d i := ref_table hd

theorem owner_page (hd : dirs h = some d) (k : ℕ) :
    owner m dirs others (.page h (dirIdx k) (tabIdx k)) =
      scheme.leaf (dirIdx k) (tabIdx k) (pteAt m d k) := ref_page hd

theorem owner_of_present (hd : dirs h = some d) (hk : k < 2 ^ 19)
    (hp : present (pteAt m d k) = true) :
    owner m dirs others (.page h (dirIdx k) (tabIdx k)) = some (pteFrame (pteAt m d k)) := by
  rw [owner_page hd, leaf_user hk, if_pos hp]

end Owners

section Stores

variable {dirs : H → Option ℕ} {loose : Set ℕ} {m : Mem} {d f k t : ℕ}

theorem page_setPage_self (m : Mem) (f : ℕ) (b : ByteBlock pgSize) :
    (m.setPage f b).page f = b := by
  simp only [Mem.setPage, update_self]

variable (hf : Frames lk dirs others loose m)
include hf

theorem Frames.setPage (hnode : ∀ q : Spot H O, q.IsNode → owner m dirs others q ≠ some f)
    (b : ByteBlock pgSize) : Frames lk dirs others loose (m.setPage f b) :=
  ⟨hf.nodup, hf.managed, hf.owned.congr (fun _ => Iff.rfl)
    fun q => congrFun (ref_write (c := b) hnode) q⟩

theorem Moves.setLoose (hloose : f ∈ loose) (b : ByteBlock pgSize) :
    Moves lk others (∅ : Set (Spot H O)) dirs dirs loose m (m.setPage f b) := by
  have hfree := hf.owned.unowned f hloose
  refine ⟨hf.setPage (fun q _ => hfree q) b, fun q _ g hg => ?_, rfl⟩
  have hne : g ≠ f := by
    rintro rfl
    exact hfree q hg
  refine ⟨(congrFun (ref_write (c := b) fun q _ => hfree q) q).trans hg, ?_⟩
  exact update_of_ne hne b m.page

theorem Moves.setUser (hd : dirs h = some d) (hk : k < 2 ^ 19) (hp : present (pteAt m d k) = true)
    (b : ByteBlock pgSize) :
    Moves lk others {.page h (dirIdx k) (tabIdx k)} dirs dirs loose m
      (m.setPage (pteFrame (pteAt m d k)) b) := by
  have howner : owner m dirs others (.page h (dirIdx k) (tabIdx k)) = _ :=
    owner_of_present hd hk hp
  have hnode := not_node hf.owned (q := .page h (dirIdx k) (tabIdx k)) id howner
  refine ⟨hf.setPage hnode b, fun q hq g hg => ?_, rfl⟩
  have hne : g ≠ pteFrame (pteAt m d k) := by
    rintro rfl
    exact hq (hf.owned.inj q _ _ hg howner)
  refine ⟨(congrFun (ref_write (c := b) hnode) q).trans hg, ?_⟩
  exact update_of_ne hne b m.page

end Stores

section Allocator

variable {dirs : H → Option ℕ} {loose : Set ℕ} {m m' : Mem} {d f k t : ℕ}

def supply (refuse : ℕ → Bool) : ℕ → List ℕ → ℕ
  | _, [] => 0
  | c, _ :: fs => if refuse c = true then 0 else supply refuse (c + 1) fs + 1

def Mem.stock (m : Mem) : ℕ := supply m.refuse m.calls m.freelist

theorem supply_of_not_refuse {refuse : ℕ → Bool} (hnever : ∀ c, refuse c = false) (fs : List ℕ)
    (c : ℕ) : supply refuse c fs = fs.length := by
  induction fs generalizing c with
  | nil => rfl
  | cons f fs ih => rw [supply, hnever, if_neg Bool.false_ne_true, ih, length_cons]

theorem Mem.stock_of_not_refuse (hnever : ∀ c, m.refuse c = false) :
    m.stock = m.freelist.length := supply_of_not_refuse hnever m.freelist m.calls

theorem Moves.kfree (hf : Frames lk dirs others loose m) (hloose : f ∈ loose) :
    Moves lk others (∅ : Set (Spot H O)) dirs dirs (loose \ {f}) m (m.free f) := by
  have hstore := Moves.setLoose hf hloose fun _ => 1
  have hfree : f ∉ m.freelist := (hf.owned.used_of_loose hloose).2
  have hmanaged := hf.managed_of_loose hloose
  refine ⟨⟨nodup_cons.2 ⟨hfree, hf.nodup⟩, ?_, ?_⟩, hstore.keeps,
    hstore.refuse⟩
  · exact forall_mem_cons.2 ⟨hmanaged, hf.managed⟩
  · refine (hstore.frames.owned.release hloose).congr (fun g => ?_) fun q => rfl
    simp only [Mem.free, Set.mem_ofPred_eq, Set.mem_sdiff, Set.mem_singleton_iff, mem_cons,
      not_or]
    exact ⟨fun hg => ⟨⟨hg.1, hg.2.2⟩, hg.2.1⟩, fun hg => ⟨hg.1.1, hg.2, hg.1.2⟩⟩

theorem kfree_spec (hf : Frames lk dirs others loose m) (hloose : f ∈ loose) :
    wp (kfree lk f) (fun _ m' =>
      Moves lk others (∅ : Set (Spot H O)) dirs dirs (loose \ {f}) m m' ∧
        m'.freelist = f :: m.freelist ∧ ∀ g ≠ f, m'.page g = m.page g)
      (fun _ _ => False) m := by
  rw [kfree, if_pos (hf.managed_of_loose hloose)]
  refine ⟨Moves.kfree hf hloose, rfl, fun g hg => ?_⟩
  exact update_of_ne hg _ m.page

theorem kalloc_spec (hf : Frames lk dirs others loose m) :
    wp kalloc (fun r m' => m'.page = m.page ∧ m'.refuse = m.refuse ∧ match r with
      | none => m.stock = 0 ∧ m'.freelist = m.freelist ∧ Frames lk dirs others loose m'
      | some f => m.stock = m'.stock + 1 ∧ m.freelist = f :: m'.freelist ∧ f ∉ loose ∧
          Frames lk dirs others (insert f loose) m') (fun _ _ => False) m := by
  simp only [kalloc, wp_bind, wp_look, wp_update]
  obtain ⟨page, freelist, refuse, calls⟩ := m
  cases freelist with
  | nil => exact ⟨rfl, rfl, rfl, rfl, hf.nodup, hf.managed, hf.owned⟩
  | cons f next =>
    have hnodup := nodup_cons.1 hf.nodup
    have hmanaged := forall_mem_cons.1 hf.managed
    rw [wp_ite]
    refine ⟨fun hrefused => ?_, fun hallowed => ?_⟩
    · exact ⟨rfl, rfl, if_pos hrefused, rfl, hf.nodup, hf.managed, hf.owned⟩
    · have hin : f ∈ f :: next := mem_cons_self
      refine ⟨rfl, rfl, if_neg hallowed, rfl, fun hloose => (hf.owned.used_of_loose hloose).2 hin,
        hnodup.2, hmanaged.2, ?_⟩
      refine (hf.owned.take (u := f) fun hused => hused.2 hin).congr (fun g => ?_) fun q => rfl
      by_cases hg : g = f
      · simp [hg, hmanaged.1, hnodup.1]
      · simp [hg]

theorem Moves.kalloc {loose' : Set ℕ} (hpage : m'.page = m.page) (hs : m'.refuse = m.refuse)
    (hf : Frames lk dirs others loose' m') :
    Moves lk others (∅ : Set (Spot H O)) dirs dirs loose' m m' := by
  refine ⟨hf, fun q _ g hg => ⟨?_, congrFun hpage g⟩, hs⟩
  rw [world, hpage]
  exact hg

end Allocator

section FreeList

variable {dirs dirs' : H → Option ℕ} {loose : Set ℕ} {T : Set (Spot H O)} {m m' : Mem} {f : ℕ}

theorem Frames.mem_freelist (hf : Frames lk dirs others loose m) :
    f ∈ m.freelist ↔ lk.Managed f ∧ f ∉ loose ∧ ∀ q, owner m dirs others q ≠ some f := by
  constructor
  · intro hfree
    exact ⟨hf.managed f hfree, fun hloose => (hf.owned.used_of_loose hloose).2 hfree,
      fun q hq => (hf.owned.used_of_ref hq).2 hfree⟩
  · rintro ⟨hmanaged, hloose, hunowned⟩
    by_contra hfree
    rcases (hf.owned.used_iff f).1 ⟨hmanaged, hfree⟩ with ⟨q, hq⟩ | hin
    · exact hunowned q hq
    · exact hloose hin

/-- The places of the holders that a call does not touch own what they did. -/
theorem Moves.owner_eq (hm : Moves lk others T dirs dirs' loose m m') (hT : T ⊆ Place.held h)
    (hdirs : ∀ h' ≠ h, dirs' h' = dirs h') {q : Spot H O} (hq : q ∉ Place.held h) :
    owner m' dirs' others q = owner m dirs others q := by
  have hapart : ∀ h', h' ≠ h → ∀ r ∈ (Place.nodes h' : Set (Spot H O)), r ∉ T :=
    fun h' hne r hr hrT => hne (Option.some.inj (hr.2.symm.trans (hT hrT)))
  have hholder : ∀ h', q.holder = some h' → h' ≠ h := by
    rintro h' hq' rfl
    exact hq hq'
  -- a holder without a directory owns nothing, before and after
  have hempty : ∀ h', q.holder = some h' → dirs h' = none →
      owner m' dirs' others q = owner m dirs others q := by
    intro h' hq' hnone
    have hnone' : dirs' h' = none := (hdirs h' (hholder h' hq')).trans hnone
    have hbefore : owner m dirs others q = none := ref_of_held hq' hnone
    have hafter : owner m' dirs' others q = none := ref_of_held hq' hnone'
    rw [hbefore, hafter]
  cases q with
  | other o => rfl
  | dir h' => exact hdirs h' (hholder h' rfl)
  | table h' i =>
    cases hd : dirs h' with
    | none => exact hempty h' rfl hd
    | some d =>
      obtain ⟨hd', htables, -⟩ := hm.same (hapart h' (hholder h' rfl)) hd
      rw [owner_table hd, owner_table hd', htables]
  | page h' i j =>
    cases hd : dirs h' with
    | none => exact hempty h' rfl hd
    | some d =>
      obtain ⟨hd', -, hptes⟩ := hm.same (hapart h' (hholder h' rfl)) hd
      obtain ⟨k, -, rfl, rfl⟩ := exists_idx i j
      rw [owner_page hd, owner_page hd', hptes]

theorem Moves.freelist_iff (hm : Moves lk others T dirs dirs loose m m')
    (hf : Frames lk dirs others loose m) (hT : T ⊆ Place.held h) (hnone : dirs h = none) :
    f ∈ m'.freelist ↔ f ∈ m.freelist := by
  have howner : ∀ q : Spot H O, owner m' dirs others q = owner m dirs others q := by
    intro q
    by_cases hq : q ∈ Place.held h
    · have hbefore : owner m dirs others q = none := ref_of_held hq hnone
      have hafter : owner m' dirs others q = none := ref_of_held hq hnone
      rw [hbefore, hafter]
    · exact hm.owner_eq hT (fun _ _ => rfl) hq
  rw [hm.frames.mem_freelist, hf.mem_freelist]
  simp only [howner]

end FreeList

def Link.firstFrame (lk : Link) : ℕ := (lk.kernelEnd.toNat - kernBase.toNat + 4095) / pgSize

theorem Link.managed_iff (lk : Link) (f : ℕ) : lk.Managed f ↔ lk.firstFrame ≤ f ∧ f < 0xE000 := by
  have htop : physTop.toNat = 0xE000000 := rfl
  rw [Link.Managed, Link.firstFrame, toNat_kernBase, htop, pgSize]
  omega

def allFree (lk : Link) (page : ℕ → ByteBlock pgSize) (refuse : ℕ → Bool) : Mem :=
  ⟨page, List.range' lk.firstFrame (0xE000 - lk.firstFrame), refuse, 0⟩

theorem frames_allFree {H O : Type} (lk : Link) (page : ℕ → ByteBlock pgSize) (refuse : ℕ → Bool) :
    Frames lk (fun _ : H => none) (fun _ : O => none) ∅ (allFree lk page refuse) := by
  have hmem : ∀ f, f ∈ (allFree lk page refuse).freelist ↔ lk.Managed f := by
    intro f
    rw [lk.managed_iff, allFree, mem_range'_1]
    omega
  have howner : ∀ q : Spot H O, owner (allFree lk page refuse) (fun _ => none) (fun _ => none) q =
      none := by
    intro q
    cases q <;> rfl
  refine ⟨nodup_range', fun f hf => (hmem f).1 hf, ⟨?_, ?_, ?_⟩⟩
  · intro p q f hp
    simp [howner] at hp
  · intro f
    refine iff_of_false (fun hused => hused.2 ((hmem f).2 hused.1)) ?_
    rintro (⟨q, hq⟩ | hin)
    · simp [howner] at hq
    · exact hin
  · exact fun f hin => absurd hin (Set.notMem_empty f)

/-- A kernel that ends after two pages. -/
def smallLink : Link where
  data := 0x80101000
  kernelEnd := 0x80102000
  aligned := by decide
  text := by decide
  ordered := by decide
  small := by decide

def freshMem : Mem := allFree smallLink (fun _ _ => 0) fun _ => false

theorem stock_freshMem : freshMem.stock = 57086 := by
  rw [Mem.stock_of_not_refuse fun _ => rfl]
  exact length_range'

end Xv6.Vm
