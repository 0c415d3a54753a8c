import Xv6.Process.Fork

/-!
# Loading a program

The part of `exec` that reads the file. Whatever bytes the file has, the pages below the size
reached are all present and none is present from there to `KERNBASE`, so that `allocuvm` finds no
page where it maps one and `loaduvm` finds every page it loads. After a failure the new
directory is given back.
-/

namespace Xv6.Vm

open Routine PageTable

/-- A directory with the kernel part and without a user page from the size on. -/
structure Space (m : Mem) (d : ℕ) (sz : BitVec 32) : Prop where
  kernel : KernelPart m d
  small : sz < kernBase
  above : ∀ k, pagesOf sz ≤ k → k < 2 ^ 19 → present (pteAt m d k) = false

def Full (m : Mem) (d : ℕ) (sz : BitVec 32) : Prop :=
  ∀ k < pagesOf sz, present (pteAt m d k) = true

section Space

variable {H O : Type} {lk : Link} {others : O → Option ℕ} {dirs : H → Option ℕ}
  {loose : Set ℕ} {m m' : Mem} {h : H} {d : ℕ} {sz new : BitVec 32}

theorem Space.toNat_lt (hs : Space m d sz) : sz.toNat < 2 ^ 31 := by
  have hlt := BitVec.lt_def.1 hs.small
  rwa [toNat_kernBase] at hlt

theorem Space.pagesOf_le (hs : Space m d sz) : pagesOf sz ≤ 2 ^ 19 :=
  Vm.pagesOf_le (Nat.le_of_lt hs.toNat_lt)

theorem Space.congr (hs : Space m d sz) (htables : ∀ i, tableAt m' d i = tableAt m d i)
    (hptes : ∀ k, pteAt m' d k = pteAt m d k) : Space m' d sz := by
  refine ⟨hs.kernel.congr (Grows.of_eq htables) fun k _ _ => hptes k, hs.small, fun k hlo hk => ?_⟩
  rw [hptes, hs.above k hlo hk]

theorem Full.congr (hfull : Full m d sz) (hptes : ∀ k, pteAt m' d k = pteAt m d k) :
    Full m' d sz := by
  intro k hk
  rw [hptes, hfull k hk]

theorem Moves.space {dirs' : H → Option ℕ} {loose' : Set ℕ} {T : Set (Spot H O)}
    (hm : Moves lk others T dirs dirs' loose' m m') (hT : ∀ q ∈ Place.nodes h, q ∉ T)
    (hd : dirs h = some d) (hs : Space m d sz) : Space m' d sz := by
  obtain ⟨-, htables, hptes⟩ := hm.same hT hd
  exact hs.congr htables hptes

theorem Moves.full {dirs' : H → Option ℕ} {loose' : Set ℕ} {T : Set (Spot H O)}
    (hm : Moves lk others T dirs dirs' loose' m m') (hT : ∀ q ∈ Place.nodes h, q ∉ T)
    (hd : dirs h = some d) (hfull : Full m d sz) : Full m' d sz := by
  obtain ⟨-, -, hptes⟩ := hm.same hT hd
  exact hfull.congr hptes

section

variable (hadded : Added lk others dirs loose h d (pagesOf sz) (pagesOf new) m m')
  (hs : Space m d sz)
include hadded hs

theorem Added.space (hsmall : new < kernBase) (hle : sz ≤ new) : Space m' d new := by
  have hnat := BitVec.lt_def.1 hsmall
  have hpages := pagesOf_le (Nat.le_of_lt hnat)
  have hmore : pagesOf sz ≤ pagesOf new := by
    have hle := BitVec.le_def.1 hle
    rw [pagesOf, pagesOf]
    omega
  refine ⟨hs.kernel.congr hadded.grows fun k hlo hk => hadded.other k hk (.inr (by omega)),
    hsmall, fun k hlo hk => ?_⟩
  rw [hadded.other k (by omega) (.inr hlo), hs.above k (by omega) hk]

theorem Added.full (hfull : Full m d sz) : Full m' d new := by
  have hpages := hs.pagesOf_le
  intro k hk
  rcases Nat.lt_or_ge k (pagesOf sz) with hold | hnew
  · rw [hadded.other k (by omega) (.inl hold), hfull k hold]
  · obtain ⟨f, -, hpte, -⟩ := hadded.page k hnew hk
    rw [hpte, present_map]

end

theorem allocuvm_space [DecidableEq H] (hf : Frames lk dirs others loose m) (hd : dirs h = some d)
    (hs : Space m d sz) :
    wp (allocuvm lk d sz new) (fun r m' =>
      Moves lk others (Place.nodes h) dirs dirs loose m m' ∧
        (r ≠ 0 → new ≤ r ∧ Space m' d r ∧ (Full m d sz → Full m' d r)))
      (fun _ _ => False) m := by
  refine wp_mono_ok (allocuvm_spec hf hd hs.above) ?_
  rintro r m' (⟨-, rfl, rfl⟩ | ⟨hless, -, rfl, rfl⟩ | ⟨hle, hlt, ⟨rfl, hadded⟩ | ⟨rfl, hback⟩⟩)
  · exact ⟨Moves.refl hf, fun hne => absurd rfl hne⟩
  · exact ⟨Moves.refl hf, fun _ => ⟨BitVec.le_of_lt hless, hs, id⟩⟩
  · exact ⟨hadded.moves, fun _ => ⟨BitVec.le_refl _, hadded.space hs hlt hle, hadded.full hs⟩⟩
  · exact ⟨hback.moves, fun hne => absurd rfl hne⟩

end Space

end Xv6.Vm

namespace Xv6.Process

open Routine PageTable Vm

section Load

variable {H O : Type} {lk : Link} {others : O → Option ℕ} {dirs : H → Option ℕ}
  {loose : Set ℕ} {m m' : Mem} {h : H} {d : ℕ} {sz : BitVec 32}

theorem le_add_of_not_wraps {a b : BitVec 32} (h : ¬ a + b < a) :
    (a + b).toNat = a.toNat + b.toNat := by
  rw [BitVec.lt_def, BitVec.toNat_add] at h
  rw [BitVec.toNat_add]
  omega

/-- What loading leaves: a directory that the size reached describes, if there is one. -/
structure Loaded (lk : Link) (others : O → Option ℕ) (dirs : H → Option ℕ) (loose : Set ℕ) (h : H)
    (d : ℕ) (m : Mem) (r : Option (BitVec 32)) (m' : Mem) : Prop where
  moves : Moves lk others (Place.held h) dirs dirs loose m m'
  space : ∀ sz, r = some sz → Space m' d sz ∧ Full m' d sz

theorem Loaded.bad (hm : Moves lk others (Place.held h) dirs dirs loose m m') :
    Loaded lk others dirs loose h d m none m' :=
  ⟨hm, fun _ hnone => absurd hnone (Option.some_ne_none _).symm⟩

theorem span_subset_held (h : H) (lo hi : ℕ) : (span h lo hi : Set (Spot H O)) ⊆ Place.held h :=
  Set.subset_union_right.trans nodes_union_span_subset

variable [DecidableEq H]

theorem loadSegments_spec (hd : dirs h = some d) (file : List Byte) (n : ℕ) {off : BitVec 32}
    (hf : Frames lk dirs others loose m) (hs : Space m d sz) (hfull : Full m d sz) :
    wp (loadSegments lk d file n off sz) (Loaded lk others dirs loose h d m)
      (fun _ _ => False) m := by
  induction n generalizing off sz m with
  | zero =>
    refine ⟨Moves.refl hf, fun sz' heq => ?_⟩
    cases heq
    exact ⟨hs, hfull⟩
  | succ n ih =>
    rw [loadSegments]
    simp only [wp_ite, wp_bind, wp_pure]
    -- one check after the other; each of them may go to `bad`
    refine ⟨fun _ => Loaded.bad (Moves.refl hf), fun _ => ⟨fun _ => ih hf hs hfull, fun _ =>
      ⟨fun _ => Loaded.bad (Moves.refl hf), fun hfits =>
        ⟨fun _ => Loaded.bad (Moves.refl hf), fun hwraps => ?_⟩⟩⟩⟩
    refine wp_mono_ok (allocuvm_space hf hd hs) ?_
    rintro r m₁ ⟨hmoves₁, hgrown⟩
    have hheld₁ := hmoves₁.mono (Place.nodes_subset_held h)
    refine ⟨fun _ => Loaded.bad hheld₁, fun hne =>
      ⟨fun _ => Loaded.bad hheld₁, fun haligned => ?_⟩⟩
    obtain ⟨hle, hs₁, hfull₁⟩ := hgrown hne
    have hsum := le_add_of_not_wraps hwraps
    have hle := BitVec.le_def.1 hle
    have hfits := BitVec.not_lt.1 hfits
    have hfits := BitVec.le_def.1 hfits
    have hlt := hs₁.toNat_lt
    refine wp_mono_ok (loaduvm_spec hmoves₁.frames hd file (not_not.1 haligned) (by omega) ?_) ?_
    · intro k hk
      refine hfull₁ hfull k ?_
      rw [pagesOf]
      omega
    · rintro r' m₂ ⟨-, hmoves₂⟩
      have hheld₂ := hheld₁.trans (hmoves₂.mono (span_subset_held h 0 (2 ^ 19)))
      have hout := span_disjoint_nodes (O := O) h 0 (2 ^ 19)
      refine ⟨fun _ => Loaded.bad hheld₂, fun _ => ?_⟩
      refine wp_mono_ok (ih hmoves₂.frames (hmoves₂.space hout hd hs₁)
        (hmoves₂.full hout hd (hfull₁ hfull))) ?_
      exact fun r'' m₃ hrest => ⟨hheld₂.trans hrest.moves, hrest.space⟩

theorem loadImage_spec (hf : Frames lk dirs others loose m) (hnone : dirs h = none)
    (file : List Byte) :
    wp (loadImage lk file) (fun r m' => match r with
      | none => Moves lk others (Place.held h) dirs dirs loose m m'
      | some im =>
        Moves lk others (Place.held h) dirs (Function.update dirs h (some im.pgdir)) loose m m' ∧
          Space m' im.pgdir im.sz ∧ Full m' im.pgdir im.sz) (fun _ _ => False) m := by
  rw [loadImage]
  simp only [wp_ite, wp_bind, wp_pure]
  refine ⟨fun _ => Moves.refl hf, fun _ => ⟨fun _ => Moves.refl hf, fun _ => ?_⟩⟩
  refine wp_mono_ok (setupkvm_spec hf hnone) ?_
  rintro (- | d) m₁ hpost
  · exact hpost.1
  obtain ⟨hmoves₁, hkernel, -, hzero, -⟩ := hpost
  have hd : Function.update dirs h (some d) h = some d := Function.update_self ..
  have hs : Space m₁ d 0 := by
    refine ⟨hkernel, by decide, fun k _ hk => ?_⟩
    rw [hzero k hk, present_zero]
  have hfull : Full m₁ d 0 := fun k hk => absurd hk (Nat.not_lt_zero k)
  simp only [wp_bind]
  refine wp_mono_ok (loadSegments_spec hd file _ hmoves₁.frames hs hfull) ?_
  rintro (- | sz) m₂ hloaded
  · simp only [wp_bind, wp_pure]
    refine wp_mono_ok (freevm_spec hloaded.moves.frames hd) fun _ m₃ hfree => ?_
    rw [Function.update_idem, ← hnone, Function.update_eq_self] at hfree
    exact (hmoves₁.trans hloaded.moves).trans hfree
  · exact ⟨hmoves₁.trans hloaded.moves, hloaded.space sz rfl⟩

end Load

end Xv6.Process
