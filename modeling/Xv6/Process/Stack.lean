import Xv6.Process.Load

/-!
# The stack of a new program

The part of `exec` after the program has been loaded: a guard page and a stack page, and the
arguments that are pushed on the stack page. A string that does not fit reaches the guard page
from below and `copyout` returns -1, unless `sp` wraps; then it is an address of the kernel half,
and `uva2ka` follows a null pointer where the directory has no table.
-/

namespace Xv6.Process

open Routine PageTable Vm List Option

variable {H O : Type} {lk : Link} {others : O → Option ℕ} {dirs : H → Option ℕ} {loose : Set ℕ}
  {m m' : Mem} {h : H} {d g f : ℕ}

variable {ptrs : List (BitVec 32)} {b : ByteBlock pgSize}

section Pages

variable [DecidableEq H] {sz : BitVec 32}

/-- A directory whose last page, in frame `f`, is the stack, after the guard page `g`. -/
structure StackReady (m : Mem) (d : ℕ) (sz : BitVec 32) (g f : ℕ) : Prop where
  space : Space m d sz
  full : Full m d sz
  size : sz.toNat = 4096 * (g + 2)
  guard : userFrame (pteAt m d g) = none
  page : userFrame (pteAt m d (g + 1)) = some f

theorem guard_spec (hf : Frames lk dirs others loose m) (hd : dirs h = some d)
    (hs : Space m d sz) (hfull : Full m d sz) (hsz : sz.toNat = 4096 * (g + 2))
    (hpage : userFrame (pteAt m d (g + 1)) = some f) :
    wp (clearpteu d (sz - 2 * 4096)) (fun _ m' =>
      Moves lk others (Place.nodes h) dirs dirs loose m m' ∧ StackReady m' d sz g f)
      (fun _ _ => False) m := by
  have hlt := hs.toNat_lt
  have hpages : pagesOf sz = g + 2 := by
    rw [pagesOf]
    omega
  have hva : (sz - 2 * 4096).toNat = 4096 * g := by
    have htwo : (2 * 4096 : BitVec 32).toNat = 8192 := by decide
    rw [BitVec.toNat_sub, htwo]
    omega
  refine wp_mono_ok (clearpteu_spec hf hd hva (by omega) (hfull g (by omega))) ?_
  rintro _ m' ⟨hmoves, htables, hptes⟩
  have hpresent : ∀ k < 2 ^ 20, present (pteAt m' d k) = present (pteAt m d k) := by
    intro k hk
    rw [hptes k hk]
    split_ifs with hkg
    · rw [present_clear, hkg]
    · rfl
  refine ⟨hmoves, ⟨⟨?_, hs.small, fun k hlo hk => ?_⟩, fun k hk => ?_, hsz, ?_, ?_⟩⟩
  · refine hs.kernel.congr (Grows.of_eq htables) fun k hlo hk => ?_
    have hkg : k ≠ g := by omega
    rw [hptes k hk, if_neg hkg]
  · rw [hpresent k (by omega), hs.above k hlo hk]
  · rw [hpresent k (by omega), hfull k hk]
  · rw [hptes g (by omega), if_pos rfl]
    exact userFrame_of_not_user (user_clear _)
  · rw [hptes (g + 1) (by omega), if_neg (Nat.succ_ne_self g), hpage]

/-- What the allocation of the stack leaves. -/
structure StackPages (lk : Link) (others : O → Option ℕ) (dirs : H → Option ℕ) (loose : Set ℕ)
    (h : H) (d : ℕ) (sz : BitVec 32) (m : Mem) (r : Option (BitVec 32)) (m' : Mem) : Prop where
  moves : Moves lk others (Place.nodes h) dirs dirs loose m m'
  ready : ∀ top, r = some top → ∃ f, StackReady m' d top (pagesOf sz) f
  short : r = none → 2 ^ 31 ≤ 4096 * (pagesOf sz + 2) ∨ m.stock ≤ 1026

theorem stackPages_spec (hf : Frames lk dirs others loose m) (hd : dirs h = some d)
    (hs : Space m d sz) (hfull : Full m d sz) :
    wp (stackPages lk d sz) (StackPages lk others dirs loose h d sz m) (fun _ _ => False) m := by
  have hlt := hs.toNat_lt
  have hpagesOf := hs.pagesOf_le
  have hround := toNat_pgRoundUp (Nat.le_of_lt hlt)
  have hpages : pagesOf (pgRoundUp sz) = pagesOf sz := by
    rw [pagesOf, hround]
    omega
  have htwo : (2 * 4096 : BitVec 32).toNat = 8192 := by decide
  have hsum : (pgRoundUp sz + 2 * 4096).toNat = 4096 * (pagesOf sz + 2) := by
    rw [BitVec.toNat_add, htwo, hround]
    omega
  have habove : ∀ k, pagesOf (pgRoundUp sz) ≤ k → k < 2 ^ 19 → present (pteAt m d k) = false := by
    rw [hpages]
    exact hs.above
  have hbad : ∀ {m'}, Moves lk others (Place.nodes h) dirs dirs loose m m' →
      2 ^ 31 ≤ 4096 * (pagesOf sz + 2) ∨ m.stock ≤ 1026 →
        StackPages lk others dirs loose h d sz m none m' :=
    fun hm hshort => ⟨hm, fun _ hnone => absurd hnone (some_ne_none _).symm, fun _ => hshort⟩
  rw [stackPages, wp_bind]
  generalize pgRoundUp sz + 2 * 4096 = new at hsum ⊢
  refine wp_mono_ok (allocuvm_spec hf hd habove) ?_
  intro r m₁ hcase
  rw [wp_ite, wp_bind]
  rcases hcase with (⟨hbig, rfl, rfl⟩ | ⟨hless, -⟩ | ⟨hle, hsmall, ⟨rfl, hadded⟩ | ⟨rfl, hback⟩⟩)
  · have hbig := BitVec.le_def.1 hbig
    rw [toNat_kernBase] at hbig
    exact ⟨fun _ => hbad (Moves.refl hf) (.inl (by omega)), fun hne => absurd rfl hne⟩
  · have hless := BitVec.lt_def.1 hless
    omega
  · have hpos : r ≠ 0 := by
      rintro rfl
      have hzero : (0 : BitVec 32).toNat = 0 := rfl
      omega
    refine ⟨fun hzero => absurd hzero hpos, fun _ => ?_⟩
    have hnat := BitVec.lt_def.1 hsmall
    rw [toNat_kernBase] at hnat
    have hs₀ : Space m d (pgRoundUp sz) := by
      refine ⟨hs.kernel, ?_, habove⟩
      rw [BitVec.lt_def, toNat_kernBase]
      omega
    have hfull₀ : Full m d (pgRoundUp sz) := by
      intro k hk
      exact hfull k (hpages ▸ hk)
    have hnew : pagesOf r = pagesOf sz + 2 := by
      rw [pagesOf, hsum]
      omega
    obtain ⟨f, hf₁, hpte, -⟩ := hadded.page (pagesOf sz + 1) (by omega) (by omega)
    have haddr : (frameAddr f).toNat % 4096 = 0 := by
      rw [toNat_frameAddr hf₁]
      omega
    have hpage : userFrame (pteAt m₁ d (pagesOf sz + 1)) = some f := by
      refine userFrame_eq_some.2 ⟨by rw [hpte, present_map], ?_, ?_⟩
      · rw [hpte, user_map haddr]
        decide
      · rw [hpte, pteFrame_map _ (by decide), pteFrame_frameAddr hf₁]
    refine wp_mono_ok (guard_spec hadded.moves.frames hd (hadded.space hs₀ hsmall hle)
      (hadded.full hs₀ hfull₀) hsum hpage) ?_
    rintro _ m₂ ⟨hmoves₂, hready⟩
    refine ⟨hadded.moves.trans hmoves₂, fun top heq => ?_, fun heq => ?_⟩
    · cases heq
      exact ⟨f, hready⟩
    · exact absurd heq (some_ne_none _)
  · have hshort := hback.short
    have hnew : pagesOf new = pagesOf sz + 2 := by
      rw [pagesOf, hsum]
      omega
    exact ⟨fun _ => hbad hback.moves (.inr (by omega)), fun hne => absurd rfl hne⟩

end Pages

section Addresses

variable {sp : BitVec 32} {len : ℕ}

theorem toNat_align (a : BitVec 32) : (a &&& ~~~(3 : BitVec 32)).toNat = a.toNat / 4 * 4 := by
  have hbits : ∀ i < 32, (3 : BitVec 32).getLsbD i = decide (i < 2) := by decide
  have hshift : a &&& ~~~(3 : BitVec 32) = a >>> 2 <<< 2 := by
    apply BitVec.eq_of_getLsbD_eq
    intro i hi
    simp only [BitVec.getLsbD_and, BitVec.getLsbD_not, BitVec.getLsbD_shiftLeft,
      BitVec.getLsbD_ushiftRight, hbits i hi]
    grind
  rw [hshift, BitVec.toNat_shiftLeft, BitVec.toNat_ushiftRight, Nat.shiftLeft_eq,
    Nat.shiftRight_eq_div_pow]
  omega

def slotSize (len : ℕ) : ℕ := (len + 4) / 4 * 4

def stackSize (args : List (List Byte)) : ℕ := (args.map fun arg => slotSize arg.length).sum

theorem stackSize_cons (arg : List Byte) (args : List (List Byte)) :
    stackSize (arg :: args) = slotSize arg.length + stackSize args := by
  rw [stackSize, map_cons, sum_cons, stackSize]

def pushSp (sp : BitVec 32) (len : ℕ) : BitVec 32 :=
  (sp - BitVec.ofNat 32 (len + 1)) &&& ~~~(3 : BitVec 32)

theorem toNat_pushSp (haligned : sp.toNat % 4 = 0) (hle : slotSize len ≤ sp.toNat) :
    (pushSp sp len).toNat = sp.toNat - slotSize len := by
  rw [slotSize] at hle ⊢
  rw [pushSp, toNat_align, BitVec.toNat_sub, BitVec.toNat_ofNat]
  omega

theorem toNat_pushSp_wraps (haligned : sp.toNat % 4 = 0) (hlen : len < 2 ^ 31)
    (hlt : sp.toNat < slotSize len) : (pushSp sp len).toNat = 2 ^ 32 + sp.toNat - slotSize len := by
  rw [slotSize] at hlt ⊢
  rw [pushSp, toNat_align, BitVec.toNat_sub, BitVec.toNat_ofNat]
  omega

end Addresses

section Push

variable {sz sp : BitVec 32} {arg : List Byte}

section

variable (hr : StackReady m d sz g f)
include hr

theorem StackReady.lt : g + 2 < 2 ^ 19 := by
  have hlt := hr.space.toNat_lt
  have hsize := hr.size
  omega

theorem StackReady.pages : pagesOf sz = g + 2 := by
  have hsize := hr.size
  rw [pagesOf]
  omega

theorem StackReady.table_ne_none {k : ℕ} (hk : k ≤ g + 1) : tableAt m d (dirIdx k) ≠ none := by
  have hpages := hr.pages
  obtain ⟨t, ht⟩ := tableAt_of_present (hr.full k (by omega))
  rw [ht]
  exact some_ne_none t

theorem StackReady.congr (htables : ∀ i, tableAt m' d i = tableAt m d i)
    (hptes : ∀ k, pteAt m' d k = pteAt m d k) : StackReady m' d sz g f := by
  refine ⟨hr.space.congr htables hptes, hr.full.congr hptes, hr.size, ?_, ?_⟩
  · rw [hptes, hr.guard]
  · rw [hptes, hr.page]

/-- The addresses of the kernel half that have no table are those between the memory and the
devices. -/
theorem StackReady.table_iff {a k : ℕ} (hlo : 2 ^ 31 ≤ a) (hhi : a < 2 ^ 32) (hk : a / 4096 = k) :
    tableAt m d (dirIdx k) = none ↔ 0x8E000000 ≤ a ∧ a < 0xFE000000 := by
  have hidx : (dirIdx k).val = a / 2 ^ 22 := by
    show k / 1024 % 1024 = a / 2 ^ 22
    omega
  have htable := hr.space.kernel.table (dirIdx k) (by omega)
  rw [← not_iff_not, ← ne_eq, htable, kernelIdx, Finset.mem_filter]
  simp only [Finset.mem_univ, true_and]
  omega

theorem StackReady.present :
    present (pteAt m d (g + 1)) = true ∧ pteFrame (pteAt m d (g + 1)) = f := by
  obtain ⟨hp, -, hframe⟩ := userFrame_eq_some.1 hr.page
  exact ⟨hp, hframe⟩

theorem StackReady.store (hf : Frames lk dirs others loose m) (hd : dirs h = some d) (off : ℕ)
    (bytes : List Byte) :
    Moves lk others (span h 0 (2 ^ 19)) dirs dirs loose m (m.storeBytes f off bytes) ∧
      StackReady (m.storeBytes f off bytes) d sz g f := by
  have hlt := hr.lt
  obtain ⟨hp, hframe⟩ := hr.present
  have hmoves := Moves.storeBytes hf hd (show g + 1 < 2 ^ 19 by omega) hp off bytes
  rw [hframe] at hmoves
  obtain ⟨-, htables, hptes⟩ := hmoves.same (span_disjoint_nodes h 0 (2 ^ 19)) hd
  exact ⟨hmoves, hr.congr htables hptes⟩

end

def Gap (sp len : ℕ) : Prop := sp + 0x2000000 < slotSize len ∧ slotSize len ≤ sp + 0x72000000

/-- `copyout` of one string: it is stored on the stack page, or `-1` is returned, or a null
pointer is followed. -/
theorem copyout_push (hr : StackReady m d sz g f) (hf : Frames lk dirs others loose m)
    (hd : dirs h = some d) (hlo : 4096 * (g + 1) ≤ sp.toNat) (hhi : sp ≤ sz)
    (haligned : sp.toNat % 4 = 0) (hlen : arg.length < 2 ^ 31) :
    wp (copyout d (pushSp sp arg.length) (arg ++ [0])) (fun r m' =>
      r = 0 ∧ 4096 * (g + 1) + slotSize arg.length ≤ sp.toNat ∧
          m' = m.storeBytes f ((pushSp sp arg.length).toNat - 4096 * (g + 1)) (arg ++ [0]) ∨
        r = -1 ∧ sp.toNat < 4096 * (g + 1) + slotSize arg.length ∧ ¬ Gap sp.toNat arg.length ∧
          Moves lk others (span h 0 (2 ^ 19)) dirs dirs loose m m')
      (fun e _ => e = .nullPte ∧ Gap sp.toNat arg.length) m := by
  have hlt := hr.lt
  have hsize := hr.size
  have hhi := BitVec.le_def.1 hhi
  have hbuf : arg ++ [0] ≠ [] := append_ne_nil_of_right_ne_nil _ (cons_ne_nil _ _)
  have hlength : (arg ++ [0]).length = arg.length + 1 := by simp
  have hslot : arg.length + 1 ≤ slotSize arg.length := by
    rw [slotSize]
    omega
  have hslot' : slotSize arg.length ≤ arg.length + 4 := by
    rw [slotSize]
    omega
  rcases Nat.lt_or_ge sp.toNat (slotSize arg.length) with hwraps | hfits
  · -- an address of the kernel half
    have haddr := toNat_pushSp_wraps haligned hlen hwraps
    have htable := hr.table_iff (k := (pushSp sp arg.length).toNat / 4096)
      (show 2 ^ 31 ≤ (pushSp sp arg.length).toNat by omega) (BitVec.isLt _) rfl
    by_cases hnone : tableAt m d (dirIdx ((pushSp sp arg.length).toNat / 4096)) = none
    · have hgap := htable.1 hnone
      rw [wp, copyout_null rfl hnone hbuf]
      exact ⟨rfl, by rw [Gap]; omega⟩
    · have huser : userFrame (pteAt m d ((pushSp sp arg.length).toNat / 4096)) = none := by
        refine userFrame_of_not_user (hr.space.kernel.user _ ?_ ?_)
        · omega
        · omega
      rw [wp, copyout_kernel rfl hnone huser hbuf]
      refine .inr ⟨rfl, by omega, fun hgap => hnone (htable.2 ?_), Moves.refl hf⟩
      rw [Gap] at hgap
      omega
  · have haddr := toNat_pushSp haligned hfits
    rcases Nat.lt_or_ge sp.toNat (4096 * (g + 1) + slotSize arg.length) with hbelow | hinside
    · -- the string would have to go through the guard page
      have hblocked : wp (copyout d (pushSp sp arg.length) (arg ++ [0])) _ _ m :=
        copyout_blocked hf hd (show g < 2 ^ 19 by omega) (by omega)
          (fun k hk => hr.table_ne_none (Nat.le_succ_of_le hk)) hr.guard (by omega) hbuf
      have hspec : wp (copyout d (pushSp sp arg.length) (arg ++ [0])) _ _ m :=
        copyout_spec hf hd hr.space.kernel.user
      refine wp_mono (wp_and hblocked hspec) ?_ fun _ _ hstop => hstop.1.elim
      rintro r m' ⟨rfl, -, hmoves⟩
      refine .inr ⟨rfl, hbelow, ?_, hmoves⟩
      rw [Gap]
      omega
    · have hmod' : (pushSp sp arg.length).toNat % 4096 =
          (pushSp sp arg.length).toNat - 4096 * (g + 1) := by omega
      rw [wp, copyout_inside (show (pushSp sp arg.length).toNat / 4096 = g + 1 by omega) hr.page
        (by omega) hbuf, hmod']
      exact .inl ⟨rfl, hinside, rfl⟩

/-- A string with its NUL is stored at address `a` of a page that starts at `base`. -/
structure StringAt (b : ByteBlock pgSize) (base lo top : ℕ) (a : BitVec 32) (arg : List Byte) :
    Prop where
  aligned : a.toNat % 4 = 0
  low : lo ≤ a.toNat
  high : a.toNat + arg.length + 1 ≤ top
  bytes : ∀ j ≤ arg.length, b.byteAt (a.toNat - base + j) = (arg ++ [0]).getD j 0

/-- The strings are stored above `sp`, each below the one before. -/
structure Pushed (b : ByteBlock pgSize) (base top sp : ℕ) (ptrs : List (BitVec 32))
    (args : List (List Byte)) : Prop where
  low : base ≤ sp
  high : sp ≤ top
  aligned : sp % 4 = 0
  strings : List.Forall₂ (StringAt b base sp top) ptrs args
  apart : (ptrs.zip args).Pairwise fun x y => y.1.toNat + y.2.length + 1 ≤ x.1.toNat

theorem StringAt.store {base lo lo' top off len : ℕ} {a : BitVec 32}
    (hs : StringAt b base lo top a arg) (w : ℕ → Byte) (hlo : lo' ≤ lo)
    (hoff : base + off + len ≤ lo) : StringAt (b.store off len w) base lo' top a arg := by
  have hlow := hs.low
  refine ⟨hs.aligned, by omega, hs.high, fun j hj => ?_⟩
  rw [ByteBlock.byteAt_store_outside b w (by omega), hs.bytes j hj]

theorem Pushed.snoc {base top sp : ℕ} {args : List (List Byte)} {a : BitVec 32}
    (hp : Pushed b base top sp ptrs args) (hroom : base + slotSize arg.length ≤ sp)
    (htop : top = base + 4096) (ha : a.toNat = sp - slotSize arg.length) :
    Pushed (b.store (a.toNat - base) (arg ++ [0]).length fun i => (arg ++ [0]).getD i 0) base top
      a.toNat (ptrs ++ [a]) (args ++ [arg]) := by
  have haligned := hp.aligned
  have hhigh := hp.high
  have hlength : (arg ++ [0]).length = arg.length + 1 := by simp
  have hslot : arg.length + 1 ≤ slotSize arg.length := by
    rw [slotSize]
    omega
  have hmod : slotSize arg.length % 4 = 0 := by
    rw [slotSize]
    omega
  refine ⟨by omega, by omega, by omega, ?_, ?_⟩
  · refine rel_append (hp.strings.imp fun a' arg' hs => ?_) (List.Forall₂.cons ?_ .nil)
    · exact hs.store _ (by omega) (by omega)
    · refine ⟨by omega, le_rfl, by omega, fun j hj => ?_⟩
      rw [ByteBlock.byteAt_store_inside b _ (by omega) (by rw [pgSize]; omega)]
  · rw [zip_append hp.strings.length_eq, pairwise_append]
    refine ⟨hp.apart, pairwise_singleton _ _, ?_⟩
    rintro ⟨a', arg'⟩ hmem ⟨a'', arg''⟩ hnew
    obtain ⟨rfl, rfl⟩ := Prod.mk.inj (mem_singleton.1 hnew)
    have hlow := (forall₂_iff_zip.1 hp.strings).2 hmem
    have hlow := hlow.low
    show a''.toNat + arg''.length + 1 ≤ a'.toNat
    omega

def WildFrom (base : ℕ) : ℕ → List (List Byte) → Prop
  | _, [] => False
  | sp, arg :: args =>
    if base + slotSize arg.length ≤ sp then WildFrom base (sp - slotSize arg.length) args
    else Gap sp arg.length

/-- What the loop over the arguments leaves, if it returns. -/
structure ArgsPushed (lk : Link) (others : O → Option ℕ) (dirs : H → Option ℕ) (loose : Set ℕ)
    (h : H) (d g f : ℕ) (sz : BitVec 32) (args : List (List Byte)) (m : Mem)
    (r : Option (BitVec 32 × List (BitVec 32))) (m' : Mem) : Prop where
  moves : Moves lk others (span h 0 (2 ^ 19)) dirs dirs loose m m'
  inside : ∀ sp ptrs, r = some (sp, ptrs) → ∀ f' ≠ f, m'.page f' = m.page f'
  ready : ∀ sp ptrs, r = some (sp, ptrs) → StackReady m' d sz g f
  pushed : ∀ sp ptrs, r = some (sp, ptrs) →
    Pushed (m'.page f) (4096 * (g + 1)) sz.toNat sp.toNat ptrs args

theorem pushArgs_cons (d : ℕ) (arg : List Byte) (args : List (List Byte)) (argc : ℕ)
    (sp : BitVec 32) (ptrs : List (BitVec 32)) :
    pushArgs d (arg :: args) argc sp ptrs =
      if maxArg ≤ argc then pure none
      else copyout d (pushSp sp arg.length) (arg ++ [0]) >>= fun r =>
        if r < 0 then pure none
        else pushArgs d args (argc + 1) (pushSp sp arg.length) (ptrs ++ [pushSp sp arg.length]) :=
  rfl

theorem page_storeBytes_self (m : Mem) (f off : ℕ) (bytes : List Byte) :
    (m.storeBytes f off bytes).page f =
      (m.page f).store off bytes.length fun i => bytes.getD i 0 := page_setPage_self m f _

theorem page_storeBytes_of_ne (m : Mem) {f f' : ℕ} (off : ℕ) (bytes : List Byte) (hne : f' ≠ f) :
    (m.storeBytes f off bytes).page f' = m.page f' := Function.update_of_ne hne _ m.page

/-- The loop over the arguments, by induction on the arguments that are left: it returns unless
some string is wild. -/
theorem pushArgs_spec (hd : dirs h = some d) (rest : List (List Byte)) {done : List (List Byte)}
    {argc : ℕ} (hr : StackReady m d sz g f) (hf : Frames lk dirs others loose m)
    (hp : Pushed (m.page f) (4096 * (g + 1)) sz.toNat sp.toNat ptrs done)
    (hlen : ∀ arg ∈ rest, arg.length < 2 ^ 31) (hcount : argc + rest.length ≤ maxArg) :
    wp (pushArgs d rest argc sp ptrs) (fun r m' =>
      ArgsPushed lk others dirs loose h d g f sz (done ++ rest) m r m' ∧
        ¬ WildFrom (4096 * (g + 1)) sp.toNat rest ∧
        (r = none → sp.toNat < 4096 * (g + 1) + stackSize rest) ∧
        ∀ sp' ptrs', r = some (sp', ptrs') → sp'.toNat + stackSize rest = sp.toNat)
      (fun e _ => e = .nullPte ∧ WildFrom (4096 * (g + 1)) sp.toNat rest) m := by
  induction rest generalizing m sp done argc ptrs with
  | nil =>
    refine ⟨⟨Moves.refl hf, fun _ _ _ _ _ => rfl, fun _ _ _ => hr, fun sp' ptrs' heq => ?_⟩, id,
      fun heq => absurd heq (some_ne_none _), fun sp' ptrs' heq => ?_⟩
    · obtain ⟨rfl, rfl⟩ := Prod.mk.inj (Option.some.inj heq)
      rw [append_nil]
      exact hp
    · obtain ⟨rfl, rfl⟩ := Prod.mk.inj (Option.some.inj heq)
      rfl
  | cons arg rest ih =>
    have hsize := hr.size
    rw [length_cons] at hcount
    have hcons := stackSize_cons arg rest
    have hargc : ¬ maxArg ≤ argc := by omega
    rw [pushArgs_cons, if_neg hargc, wp_bind]
    refine wp_mono (copyout_push hr hf hd hp.low (BitVec.le_def.2 hp.high) hp.aligned
      (hlen arg mem_cons_self)) ?_ ?_
    · rintro r m₁ (⟨rfl, hroom, rfl⟩ | ⟨rfl, hbelow, hgap, hmoves⟩)
      · -- the string is on the stack, and the others follow
        have haddr : (pushSp sp arg.length).toNat = sp.toNat - slotSize arg.length :=
          toNat_pushSp hp.aligned (by omega)
        obtain ⟨hmoves, hready⟩ := hr.store hf hd
          ((pushSp sp arg.length).toNat - 4096 * (g + 1)) (arg ++ [0])
        have hsnoc := hp.snoc hroom (show sz.toNat = 4096 * (g + 1) + 4096 by omega) haddr
        rw [← page_storeBytes_self m f] at hsnoc
        have hwild : WildFrom (4096 * (g + 1)) sp.toNat (arg :: rest) ↔
            WildFrom (4096 * (g + 1)) (pushSp sp arg.length).toNat rest := by
          rw [WildFrom, if_pos hroom, haddr]
        rw [if_neg (by decide), hwild]
        refine wp_mono_post (ih hready hmoves.frames hsnoc
          (fun arg' hmem => hlen arg' (mem_cons_of_mem _ hmem)) (by omega)) ?_
        rintro r m₂ ⟨hrest, htame, hshort, hleft⟩
        rw [append_assoc, singleton_append] at hrest
        refine ⟨⟨hmoves.trans hrest.moves, fun sp' ptrs' heq f' hne => ?_, hrest.ready,
          hrest.pushed⟩, htame, fun heq => ?_, fun sp' ptrs' heq => ?_⟩
        · rw [hrest.inside sp' ptrs' heq f' hne, page_storeBytes_of_ne m _ _ hne]
        · have hfew := hshort heq
          omega
        · have hsum := hleft sp' ptrs' heq
          omega
      · have hnot : ¬ 4096 * (g + 1) + slotSize arg.length ≤ sp.toNat := by omega
        rw [WildFrom, if_neg hnot]
        have hbad : ∀ sp' ptrs', (none : Option (BitVec 32 × List (BitVec 32))) ≠
            some (sp', ptrs') := fun _ _ => (some_ne_none _).symm
        exact ⟨⟨hmoves, fun sp' ptrs' heq => absurd heq (hbad sp' ptrs'),
          fun sp' ptrs' heq => absurd heq (hbad sp' ptrs'),
          fun sp' ptrs' heq => absurd heq (hbad sp' ptrs')⟩, hgap, fun _ => by omega,
          fun sp' ptrs' heq => absurd heq (hbad sp' ptrs')⟩
    · rintro e _ ⟨rfl, hgap⟩
      have hnot : ¬ 4096 * (g + 1) + slotSize arg.length ≤ sp.toNat := by
        rw [Gap] at hgap
        omega
      rw [WildFrom, if_neg hnot]
      exact ⟨rfl, hgap⟩

end Push

end Xv6.Process
