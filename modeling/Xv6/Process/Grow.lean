import Xv6.Process.Rules

/-!
# Growing and shrinking a process

`growproc` either resizes the memory of a process by `n` bytes and returns 0, or returns -1 and
leaves it as it was, except when `n` takes away the whole size or more. `deallocuvm` then has
nothing better to return than 0, which `growproc` takes for a failure after the pages are gone;
and when the sum wraps it returns the old size, so that `growproc` reports a success.
-/

namespace Xv6.Process

open Routine PageTable Vm Option BitVec
open PTable (Slot)

variable {sz n : BitVec 32}

theorem toNat_add_of_pos (hsz : sz.toNat < 2 ^ 31) (hn : 0 < n.toInt) :
    ((sz + n).toNat : ℤ) = sz.toNat + n.toInt := by
  rw [BitVec.toInt] at hn ⊢
  rw [toNat_add]
  split_ifs at hn ⊢ <;> omega

theorem toNat_add_of_le (hsz : sz.toNat < 2 ^ 31) (hn : n.toInt < 0)
    (hle : 0 ≤ sz.toNat + n.toInt) : ((sz + n).toNat : ℤ) = sz.toNat + n.toInt := by
  rw [BitVec.toInt] at hn hle ⊢
  rw [toNat_add]
  split_ifs at hn hle ⊢ <;> omega

theorem le_add_of_wraps (hsz : sz.toNat < 2 ^ 31) (hn : n.toInt < 0)
    (hlt : sz.toNat + n.toInt < 0) : sz ≤ sz + n := by
  rw [le_def, toNat_add]
  rw [BitVec.toInt] at hn hlt
  split_ifs at hn hlt <;> omega

/-- The memory of a process has been resized by `n` bytes. -/
structure Resized (s s' : Kernel) (p : Slot) (d : ℕ) (n : BitVec 32) : Prop where
  size : ((s'.proc p).sz.toNat : ℤ) = (s.proc p).sz.toNat + n.toInt
  small : (s'.proc p).sz < kernBase
  kept : ∀ k < pagesOf (s.proc p).sz, k < pagesOf (s'.proc p).sz →
    pteAt s'.mem d k = pteAt s.mem d k ∧ view s'.mem d k = view s.mem d k
  zero : ∀ k, pagesOf (s.proc p).sz ≤ k → k < pagesOf (s'.proc p).sz →
    view s'.mem d k = some fun _ => 0

structure Untouched (s s' : Kernel) (p : Slot) (d : ℕ) : Prop where
  size : (s'.proc p).sz = (s.proc p).sz
  entry : ∀ k < 2 ^ 19, present (pteAt s.mem d k) = true →
    pteAt s'.mem d k = pteAt s.mem d k
  view : ∀ k < 2 ^ 19, view s'.mem d k = view s.mem d k

/-- What `growproc` should do. -/
def GrowOk (s s' : Kernel) (p : Slot) (d : ℕ) (n : BitVec 32) (r : ℤ) : Prop :=
  r = 0 ∧ Resized s s' p d n ∨ r = -1 ∧ Untouched s s' p d

section Growproc

variable {H O : Type} [DecidableEq H] {lk : Link} {others : O → Option ℕ} {dirs : H → Option ℕ}
  {loose : Set ℕ} {h : H} {d : ℕ} {s : Kernel} {p : Slot} {n : BitVec 32}

/-- A process whose memory `growproc` works on: the pages from the size on are absent. -/
structure Sized (s : Kernel) (p : Slot) (d : ℕ) : Prop where
  pgdir : (s.proc p).pgdir = some d
  kstack : (s.proc p).kstack ≠ none
  small : (s.proc p).sz < kernBase
  above : ∀ k, pagesOf (s.proc p).sz ≤ k → k < 2 ^ 19 → present (pteAt s.mem d k) = false

theorem resize_spec {Q : ℤ → Kernel → Prop} {E : Stop → Kernel → Prop} {sz : BitVec 32}
    (hdir : (s.proc p).pgdir ≠ none) (hstack : (s.proc p).kstack ≠ none)
    (hpost : Q 0 (s.modifyProc p fun x => { x with sz := sz })) : wp (resize p sz) Q E s := by
  rw [resize, wp_bind, wp_modify, wp_bind]
  refine wp_switchuvm ?_ ?_ hpost
  · rw [proc_modifyProc_self]
    exact hstack
  · rw [proc_modifyProc_self]
    exact hdir

variable {m : Mem} {sz : BitVec 32}

abbrev Kernel.resized (s : Kernel) (m : Mem) (p : Slot) (sz : BitVec 32) : Kernel :=
  (s.setMem m).modifyProc p fun x => { x with sz := sz }

omit [DecidableEq H] in
theorem resized_of_added
    (hadded : Added lk others dirs loose h d (pagesOf (s.proc p).sz) (pagesOf sz) s.mem m)
    (hd : dirs h = some d) (hsmall : sz < kernBase)
    (hsize : (sz.toNat : ℤ) = (s.proc p).sz.toNat + n.toInt) :
    Resized s (s.resized m p sz) p d n := by
  have hnat := lt_def.1 hsmall
  have hpages := pagesOf_le (Nat.le_of_lt hnat)
  have hproc : ((s.resized m p sz).proc p).sz = sz := by
    rw [Kernel.resized, proc_modifyProc_self]
  refine ⟨by rw [hproc, hsize], by rw [hproc]; exact hsmall, fun k hold hk => ?_,
    fun k hlo hk => ?_⟩
  · rw [hproc] at hk
    have hpte : pteAt m d k = pteAt s.mem d k := hadded.other k (by omega) (.inl hold)
    exact ⟨hpte, hadded.moves.view_eq hd (by omega) (Place.page_notMem_nodes h h _ _) hpte⟩
  · rw [hproc] at hk
    obtain ⟨f, hf, hpte, hzero⟩ := hadded.page k hlo hk
    have hframe : pteFrame (pteAt m d k) = f := by
      rw [hpte, pteFrame_map _ (by decide), pteFrame_frameAddr hf]
    show view m d k = some fun _ => 0
    rw [view_of_present (by rw [hpte, present_map]), hframe, hzero]

omit [DecidableEq H] in
theorem untouched_of_restored {lo hi : ℕ} (hback : Restored lk others dirs loose h d lo hi s.mem m)
    (hd : dirs h = some d) (habsent : ∀ k, lo ≤ k → k < hi → present (pteAt s.mem d k) = false) :
    Untouched s (s.setMem m) p d := by
  refine ⟨rfl, fun k hk hp => ?_, fun k hk => ?_⟩
  · refine hback.other k (by omega) ?_
    by_contra hin
    simp [habsent k (by omega) (by omega)] at hp
  · show view m d k = view s.mem d k
    by_cases hin : lo ≤ k ∧ k < hi
    · rw [view_of_absent (hback.absent k hin.1 hin.2),
        view_of_absent (habsent k hin.1 hin.2)]
    · exact hback.moves.view_eq hd hk (Place.page_notMem_nodes h h _ _)
        (hback.other k (by omega) (by omega))

omit [DecidableEq H] in
theorem resized_of_cleared
    (hcleared : Cleared lk others dirs loose h d (pagesOf sz) (pagesOf (s.proc p).sz) s.mem m)
    (hd : dirs h = some d) (hsmall : (s.proc p).sz < kernBase) (hle : sz ≤ (s.proc p).sz)
    (hsize : (sz.toNat : ℤ) = (s.proc p).sz.toNat + n.toInt) :
    Resized s (s.resized m p sz) p d n := by
  have hnat := lt_def.1 hsmall
  have hpages := pagesOf_le (Nat.le_of_lt hnat)
  have hproc : ((s.resized m p sz).proc p).sz = sz := by
    rw [Kernel.resized, proc_modifyProc_self]
  have hfewer : pagesOf sz ≤ pagesOf (s.proc p).sz := by
    have hle' := le_def.1 hle
    rw [pagesOf, pagesOf]
    omega
  refine ⟨by rw [hproc, hsize], ?_, fun k hold hk => ?_, fun k hlo hk => ?_⟩
  · rw [hproc]
    exact lt_def.2 (Nat.lt_of_le_of_lt (le_def.1 hle) (lt_def.1 hsmall))
  · rw [hproc] at hk
    have hpte : pteAt m d k = pteAt s.mem d k := hcleared.other k (by omega) (.inl hk)
    refine ⟨hpte, hcleared.moves.view_eq hd (by omega) ?_ hpte⟩
    rintro (hnode | ⟨k', hlo, hhi, heq⟩)
    · exact Place.page_notMem_nodes h h _ _ hnode
    · injection heq with _ hdir htab
      have hkk := eq_of_idx (show k < 2 ^ 20 by omega) (show k' < 2 ^ 20 by omega) hdir htab
      omega
  · rw [hproc] at hk
    omega

/-- The cases in which `growproc` does what it should. -/
def GrowSafe (s : Kernel) (p : Slot) (d : ℕ) (n : BitVec 32) : Prop :=
  0 ≤ n.toInt ∨ 0 < (s.proc p).sz.toNat + n.toInt ∨ (s.proc p).sz = 0 ∨
    (s.proc p).sz.toNat + n.toInt = 0 ∧
      ∀ k < pagesOf (s.proc p).sz, present (pteAt s.mem d k) = false

theorem growproc_pos (hf : Frames lk dirs others loose s.mem) (hd : dirs h = some d)
    (hsized : Sized s p d) (hn : 0 < n.toInt) :
    wp (growproc lk p n) (fun r s' => GrowOk s s' p d n r) (fun _ _ => False) s := by
  have hnat := lt_def.1 hsized.small
  have hsum := toNat_add_of_pos hnat hn
  rw [growproc, wp_bind, wp_getProc, hsized.pgdir]
  dsimp only
  rw [if_pos hn, wp_bind, wp_onMem]
  refine wp_mono_ok (allocuvm_spec hf hd hsized.above) ?_
  rintro r m (⟨-, rfl, rfl⟩ | ⟨hless, -⟩ | ⟨hle, hlt, ⟨rfl, hadded⟩ | ⟨rfl, hback⟩⟩)
  · exact .inr ⟨rfl, rfl, fun _ _ _ => rfl, fun _ _ => rfl⟩
  · have hless := lt_def.1 hless
    omega
  · have hne : (s.proc p).sz + n ≠ 0 := by
      intro hzero
      rw [hzero] at hsum
      have hnot : ((0 : BitVec 32).toNat : ℤ) = 0 := rfl
      omega
    rw [if_neg hne]
    refine resize_spec ?_ hsized.kstack (.inl ⟨rfl, resized_of_added hadded hd hlt hsum⟩)
    rw [proc_setMem, hsized.pgdir]
    exact some_ne_none d
  · have hnew := lt_def.1 hlt
    have hpages := pagesOf_le (Nat.le_of_lt hnew)
    exact .inr ⟨rfl, untouched_of_restored hback hd fun k hlo hk =>
      hsized.above k hlo (by omega)⟩

theorem growproc_neg (hf : Frames lk dirs others loose s.mem) (hd : dirs h = some d)
    (hsized : Sized s p d) (hn : n.toInt < 0) :
    wp (growproc lk p n) (fun r s' => GrowOk s s' p d n r ↔ GrowSafe s p d n)
      (fun _ _ => False) s := by
  have hnat := BitVec.lt_def.1 hsized.small
  have hdir : (s.proc p).pgdir ≠ none := by
    rw [hsized.pgdir]
    exact some_ne_none d
  rw [growproc, wp_bind, wp_getProc, hsized.pgdir]
  dsimp only
  rw [if_neg (by omega), if_pos hn, wp_bind, wp_onMem]
  refine wp_mono_ok (deallocuvm_spec hf hd (Nat.le_of_lt hnat)) ?_
  rintro r m (⟨hle, rfl, rfl⟩ | ⟨hlt, rfl, hcleared⟩)
  · -- nothing is done: the sum has wrapped, or the size is zero
    by_cases hzero : (s.proc p).sz = 0
    · rw [if_pos hzero]
      refine iff_of_true (.inr ⟨rfl, rfl, fun _ _ _ => rfl, fun _ _ => rfl⟩) ?_
      exact .inr (.inr (.inl hzero))
    · rw [if_neg hzero]
      have hwraps : (s.proc p).sz.toNat + n.toInt < 0 := by
        by_contra hno
        have hsum := toNat_add_of_le hnat hn (by omega)
        have hle := BitVec.le_def.1 hle
        omega
      refine resize_spec hdir hsized.kstack (iff_of_false ?_ ?_)
      · rintro (⟨-, hresized⟩ | ⟨hr, -⟩)
        · have hsize := hresized.size
          rw [proc_modifyProc_self] at hsize
          omega
        · cases hr
      · rintro (h | h | h | ⟨h, -⟩)
        · omega
        · omega
        · exact hzero h
        · omega
  · have hsum : (((s.proc p).sz + n).toNat : ℤ) = (s.proc p).sz.toNat + n.toInt := by
      refine toNat_add_of_le hnat hn (Int.not_lt.1 fun hwraps => ?_)
      exact absurd hlt (BitVec.not_lt.2 (le_add_of_wraps hnat hn hwraps))
    by_cases hzero : (s.proc p).sz + n = 0
    · -- the pages are gone, and the result is taken for a failure
      rw [if_pos hzero]
      rw [hzero] at hsum hcleared
      have hnum : ((0 : BitVec 32).toNat : ℤ) = 0 := rfl
      have hpages := pagesOf_le (Nat.le_of_lt hnat)
      have hfirst : pagesOf 0 = 0 := rfl
      constructor
      · rintro (⟨hr, -⟩ | ⟨-, huntouched⟩)
        · cases hr
        · refine .inr (.inr (.inr ⟨by omega, fun k hk => ?_⟩))
          have hview := huntouched.view k (by omega)
          have hgone : view m d k = none := by
            apply view_of_absent
            rw [hcleared.gone k (Nat.zero_le k) hk, present_unmapped]
          by_contra hp
          rw [view_of_present (Bool.eq_true_of_not_eq_false hp)] at hview
          exact some_ne_none _ (hview.symm.trans hgone)
      · intro hsafe
        have habsent : ∀ k < pagesOf (s.proc p).sz, present (pteAt s.mem d k) = false := by
          rcases hsafe with h | h | h | ⟨-, h⟩
          · omega
          · omega
          · rw [h]
            exact fun k hk => absurd hk (Nat.not_lt_zero k)
          · exact h
        have hpte : ∀ k < 2 ^ 19, pteAt m d k = pteAt s.mem d k := by
          intro k hk
          by_cases hin : k < pagesOf (s.proc p).sz
          · rw [hcleared.gone k (Nat.zero_le k) hin, unmapped_of_absent (habsent k hin)]
          · exact hcleared.other k (by omega) (by omega)
        refine .inr ⟨rfl, rfl, fun k hk _ => hpte k hk, fun k hk => ?_⟩
        show view m d k = view s.mem d k
        have hp : present (pteAt s.mem d k) = false := by
          by_cases hin : k < pagesOf (s.proc p).sz
          · exact habsent k hin
          · exact hsized.above k (by omega) hk
        rw [view_of_absent hp, view_of_absent (by rw [hpte k hk, hp])]
    · rw [if_neg hzero]
      have hpos : 0 < ((s.proc p).sz + n).toNat := by
        rw [Nat.pos_iff_ne_zero]
        exact fun hno => hzero (BitVec.eq_of_toNat_eq hno)
      refine resize_spec hdir hsized.kstack (iff_of_true (.inl ⟨rfl, ?_⟩) ?_)
      · exact resized_of_cleared hcleared hd hsized.small (BitVec.le_of_lt hlt) hsum
      · exact .inr (.inl (by omega))

/-- `growproc` does what it should if and only if `n` is not negative, or leaves a part of the
memory, or the size is zero, or `n` takes the whole size away and no page was there. -/
theorem growproc_ok_iff (hf : Frames lk dirs others loose s.mem) (hd : dirs h = some d)
    (hsized : Sized s p d) (n : BitVec 32) :
    wp (growproc lk p n) (fun r s' => GrowOk s s' p d n r ↔ GrowSafe s p d n)
      (fun _ _ => False) s := by
  rcases Int.lt_trichotomy n.toInt 0 with hneg | hzero | hpos
  · exact growproc_neg hf hd hsized hneg
  · have hnat := lt_def.1 hsized.small
    rw [growproc, wp_bind, wp_getProc, hsized.pgdir]
    dsimp only
    rw [if_neg (by omega), if_neg (by omega)]
    refine resize_spec ?_ hsized.kstack (iff_of_true (.inl ⟨rfl, ?_⟩) (.inl (by omega)))
    · rw [hsized.pgdir]
      exact some_ne_none d
    · have hproc : ((s.modifyProc p fun x => { x with sz := (s.proc p).sz }).proc p).sz =
          (s.proc p).sz := by rw [proc_modifyProc_self]
      refine ⟨by rw [hproc]; omega, by rw [hproc]; exact hsized.small,
        fun k _ _ => ⟨rfl, rfl⟩, fun k hlo hk => ?_⟩
      rw [hproc] at hk
      omega
  · exact wp_mono_ok (growproc_pos hf hd hsized hpos) fun r s' hok =>
      iff_of_true hok (.inl (Int.le_of_lt hpos))

end Growproc

/-- A kernel whose process has two pages. -/
theorem exists_process : ∃ (s : Kernel) (d : ℕ),
    Frames smallLink (Function.update (fun _ : Bool => none) false (some d)) (fun _ : Unit => none)
        ∅ s.mem ∧
      Sized s 0 d ∧ (s.proc 0).sz = 8192 ∧ (s.proc 0).state = .runnable ∧
      (∀ k < 2, present (pteAt s.mem d k) = true) ∧ (s.proc 1).state = .unused ∧
      0 < s.nextpid.toInt ∧ s.files = firstFiles ∧ 50000 ≤ s.mem.stock := by
  obtain ⟨d, m, hf, hall, habove, hstock⟩ := exists_pages (O := Unit) false
  have hproc := proc_oneProcess m d 1 8192
  have hsz : ((oneProcess m d 1 8192).proc 0).sz = 8192 := by rw [hproc]
  have hpages : pagesOf 8192 = 2 := by decide
  refine ⟨oneProcess m d 1 8192, d, hf, ⟨?_, ?_, ?_, ?_⟩, hsz, ?_, hall, rfl, ?_, rfl, hstock⟩
  · rw [hproc]
  · exact some_ne_none 1
  · rw [hsz]
    decide
  · rw [hsz, hpages]
    exact habove
  · rw [hproc]
  · exact (by decide : 0 < (2 : BitVec 32).toInt)

theorem growproc_ok_iff_grow : ∃ (s s' : Kernel) (d : ℕ) (r : ℤ),
    growproc smallLink 0 4096 s = (.ok r, s') ∧ GrowOk s s' 0 d 4096 r := by
  obtain ⟨s, d, hf, hsized, -⟩ := exists_process
  have hspec := growproc_ok_iff hf (Function.update_self false (some d) fun _ => none) hsized 4096
  obtain ⟨r, s', hrun, hiff⟩ := wp_returns hspec fun _ _ => id
  exact ⟨s, s', d, r, hrun, hiff.2 (.inl (by decide))⟩

/-- Two pages taken away from a process that has two. -/
theorem growproc_all : ∃ (s s' : Kernel) (d : ℕ) (r : ℤ), Sized s 0 d ∧ (s.proc 0).sz = 8192 ∧
    (∀ k < 2, present (pteAt s.mem d k) = true) ∧
    growproc smallLink 0 (-8192) s = (.ok r, s') ∧ ¬ GrowOk s s' 0 d (-8192) r := by
  obtain ⟨s, d, hf, hsized, hsz, -, hall, -⟩ := exists_process
  have hspec := growproc_neg hf (Function.update_self false (some d) fun _ => none) hsized
    (show (-8192 : BitVec 32).toInt < 0 by decide)
  obtain ⟨r, s', hrun, hiff⟩ := wp_returns hspec fun _ _ => id
  refine ⟨s, s', d, r, hsized, hsz, hall, hrun, fun hok => ?_⟩
  have hsum : ((8192 : BitVec 32).toNat : ℤ) + (-8192 : BitVec 32).toInt = 0 := by decide
  have hsafe := hiff.1 hok
  rw [GrowSafe, hsz, hsum] at hsafe
  rcases hsafe with hpos | hrest | hzero | ⟨-, habsent⟩
  · exact absurd hpos (by decide)
  · exact absurd hrest (by decide)
  · exact absurd hzero (by decide)
  · have hgone := habsent 0 (by decide)
    simp [hall 0 (by decide)] at hgone

end Xv6.Process
