import Xv6.Vm.Setup

/-!
# Stores into the pages of an address space

`clearpteu` changes a flag of one entry. `loaduvm` and `copyout` change no entry, only the
bytes of pages that the directory owns. The kernel half of a directory has no entry for users,
so `copyout` stores nothing there; but it follows a null pointer where there is no table, and
which addresses have one is said for each of its ways to end.
-/

namespace Xv6.Vm

open Routine PageTable List

variable {H O : Type} {lk : Link} {others : O → Option ℕ} {dirs : H → Option ℕ} {loose : Set ℕ}
  {m m' : Mem} {h : H} {va : BitVec 32}

variable {addr off sz : BitVec 32}

section Stores

variable [DecidableEq H] {d k : ℕ}

variable (hf : Frames lk dirs others loose m) (hd : dirs h = some d)

include hf hd in
theorem clearpteu_spec (hva : va.toNat = 4096 * k) (hk : k < 2 ^ 19)
    (hp : present (pteAt m d k) = true) :
    wp (clearpteu d va) (fun _ m' =>
      Moves lk others (Place.nodes h) dirs dirs loose m m' ∧ (∀ i, tableAt m' d i = tableAt m d i) ∧
        ∀ k' < 2 ^ 20, pteAt m' d k' = if k' = k then pteAt m d k &&& ~~~pteU else pteAt m d k')
      (fun _ _ => False) m := by
  obtain ⟨t, ht⟩ := tableAt_of_present hp
  have hkdiv : va.toNat / 4096 = k := by omega
  have hdir : pdx va = dirIdx k := hkdiv ▸ pdx_eq va
  have htab : ptx va = tabIdx k := hkdiv ▸ ptx_eq va
  have hpte : m.pte t (tabIdx k) = pteAt m d k := (pteAt_of_table ht).symm
  rw [clearpteu, wp_bind, wp, walkpgdir_look, hdir, htab, ht]
  simp only [Option.map_some, readPte, writePte, wp_bind, wp_look, wp_update, hpte]
  have hleaf : scheme.leaf (dirIdx k) (tabIdx k) (pteAt m d k &&& ~~~pteU) =
      scheme.leaf (dirIdx k) (tabIdx k) (pteAt m d k) := by
    rw [leaf_user hk, leaf_user hk, present_clear, pteFrame_clear]
  have hread := fun j => read_setU32 (m.page t) (tabIdx k) j (pteAt m d k &&& ~~~pteU)
  have hown := owned_setEntry hf.owned hd ht hread hleaf
  refine ⟨Moves.setPte hf hd ht ⟨hf.nodup, hf.managed, hown⟩ subset_rfl fun _ f hfound => ?_,
    tableAt_setPte hf hd ht, fun k' hk' => pteAt_setPte hf hd (by omega) ht hk'⟩
  exact hleaf.trans hfound

omit [DecidableEq H] in
theorem span_disjoint_nodes (h : H) (lo hi : ℕ) (q : Spot H O) (hq : q ∈ Place.nodes h) :
    q ∉ (span h lo hi : Set (Spot H O)) := by
  rintro ⟨k, -, -, rfl⟩
  exact Place.page_notMem_nodes h h _ _ hq

include hf hd in
omit [DecidableEq H] in
theorem Moves.storeBytes (hk : k < 2 ^ 19) (hp : present (pteAt m d k) = true) (off : ℕ)
    (bytes : List (BitVec 8)) :
    Moves lk others (span h 0 (2 ^ 19)) dirs dirs loose m
      (m.storeBytes (pteFrame (pteAt m d k)) off bytes) := by
  refine (Moves.setUser hf hd hk hp _).mono ?_
  rintro q rfl
  exact ⟨k, Nat.zero_le k, hk, rfl⟩

omit [DecidableEq H] in
theorem loadLoop_spec (hd : dirs h = some d) (file : List (BitVec 8))
    (hend : addr.toNat + sz.toNat ≤ 2 ^ 31) (n : ℕ) {i : BitVec 32} {j k₀ : ℕ}
    (haddr : addr.toNat = 4096 * k₀) (hi : i.toNat = 4096 * j) (hn : sz.toNat ≤ 4096 * (j + n))
    (hf : Frames lk dirs others loose m)
    (hp : ∀ k, 4096 * k < addr.toNat + sz.toNat → present (pteAt m d k) = true) :
    wp (loadLoop d addr file off sz n i) (fun r m' => (r = 0 ∨ r = -1) ∧
      Moves lk others (span h 0 (2 ^ 19)) dirs dirs loose m m') (fun _ _ => False) m := by
  induction n generalizing i j m with
  | zero =>
    have hnot : ¬ i < sz := by
      rw [BitVec.lt_def]
      omega
    rw [loadLoop, if_neg hnot]
    exact ⟨.inl rfl, Moves.refl hf⟩
  | succ n ih =>
    by_cases hlt : i < sz
    swap
    · rw [loadLoop, if_neg hlt]
      exact ⟨.inl rfl, Moves.refl hf⟩
    have hnat := BitVec.lt_def.1 hlt
    have hsum : (addr + i).toNat = 4096 * (k₀ + j) := by
      rw [BitVec.toNat_add]
      omega
    have hkdiv : (addr + i).toNat / 4096 = k₀ + j := by omega
    have hdir : pdx (addr + i) = dirIdx (k₀ + j) := hkdiv ▸ pdx_eq _
    have htab : ptx (addr + i) = tabIdx (k₀ + j) := hkdiv ▸ ptx_eq _
    have hpresent := hp (k₀ + j) (by omega)
    obtain ⟨t, ht⟩ := tableAt_of_present hpresent
    have hpte : m.pte t (tabIdx (k₀ + j)) = pteAt m d (k₀ + j) := (pteAt_of_table ht).symm
    rw [loadLoop, if_pos hlt, wp_bind, wp, walkpgdir_look, hdir, htab, ht]
    simp only [Option.map_some, readPte, wp_bind, wp_look, wp_update, wp_ite, hpte]
    have hstore := fun bytes => Moves.storeBytes hf hd (show k₀ + j < 2 ^ 19 by omega) hpresent 0
      bytes
    refine ⟨fun _ => ⟨.inr rfl, hstore _⟩, fun _ => ?_⟩
    obtain ⟨-, -, hptes⟩ := (hstore _).same (span_disjoint_nodes h 0 (2 ^ 19)) hd
    have hnext : (i + 4096).toNat = 4096 * (j + 1) := by
      rw [toNat_add_page (by omega)]
      omega
    refine wp_mono_ok (ih hnext (by omega) (hstore _).frames fun k hk => ?_) ?_
    · rw [hptes]
      exact hp k hk
    · exact fun r m' hpost => ⟨hpost.1, (hstore _).trans hpost.2⟩

include hf hd in
omit [DecidableEq H] in
theorem loaduvm_spec (file : List (BitVec 8)) (haddr : addr.toNat % 4096 = 0)
    (hend : addr.toNat + sz.toNat ≤ 2 ^ 31)
    (hp : ∀ k, 4096 * k < addr.toNat + sz.toNat → present (pteAt m d k) = true) :
    wp (loaduvm d addr file off sz) (fun r m' => (r = 0 ∨ r = -1) ∧
      Moves lk others (span h 0 (2 ^ 19)) dirs dirs loose m m') (fun _ _ => False) m := by
  have haligned : ¬ addr.toNat % pgSize ≠ 0 := not_not.2 haddr
  rw [loaduvm, if_neg haligned]
  have hfirst : addr.toNat = 4096 * (addr.toNat / 4096) := by omega
  refine loadLoop_spec hd file hend _ hfirst (show (0 : BitVec 32).toNat = 4096 * 0 from rfl) ?_
    hf hp
  rw [pgSize]
  omega

end Stores

section CopyOut

def userFrame (pte : BitVec 32) : Option ℕ :=
  if present pte = true ∧ user pte = true then some (pteFrame pte) else none

theorem userFrame_eq_some {pte : BitVec 32} {f : ℕ} :
    userFrame pte = some f ↔ present pte = true ∧ user pte = true ∧ pteFrame pte = f := by
  rw [userFrame]
  split_ifs with hpte
  · simp [hpte]
  · simp only [false_iff]
    exact fun hall => hpte ⟨hall.1, hall.2.1⟩

theorem userFrame_of_not_user {pte : BitVec 32} (hu : user pte = false) : userFrame pte = none := by
  rw [userFrame, hu]
  exact if_neg fun hpte => Bool.false_ne_true hpte.2

theorem uva2ka_look (d : ℕ) {va : BitVec 32} {k : ℕ} (hk : va.toNat / 4096 = k) (m : Mem) :
    uva2ka d va m = match tableAt m d (dirIdx k) with
      | none => (.error .nullPte, m)
      | some _ => (.ok (userFrame (pteAt m d k)), m) := by
  have hdir : pdx va = dirIdx k := hk ▸ pdx_eq va
  have htab : ptx va = tabIdx k := hk ▸ ptx_eq va
  rw [uva2ka, bind_of_ok (walkpgdir_look d va m), hdir, htab]
  cases ht : tableAt m d (dirIdx k) with
  | none => rfl
  | some t =>
    rw [pteAt_of_table ht]
    show (if present (m.pte t (tabIdx k)) = false then _ else
      if user (m.pte t (tabIdx k)) = false then _ else _ : VmM _) m = _
    rw [userFrame]
    cases present (m.pte t (tabIdx k)) <;> cases user (m.pte t (tabIdx k)) <;> rfl

variable {d f k : ℕ} {buf : List (BitVec 8)}

theorem toNat_sub_pgRoundDown (va : BitVec 32) : (va - pgRoundDown va).toNat = va.toNat % 4096 := by
  rw [BitVec.toNat_sub, toNat_pgRoundDown]
  omega

theorem copyoutLoop_round {Q : ℤ → Mem → Prop} {E : Panic → Mem → Prop} {b : BitVec 8} {n : ℕ}
    (hk : va.toNat / 4096 = k) (ht : tableAt m d (dirIdx k) ≠ none)
    (hnone : userFrame (pteAt m d k) = none → Q (-1) m)
    (hsome : ∀ f, userFrame (pteAt m d k) = some f → wp (copyoutLoop d n (pgRoundDown va + 4096)
        ((b :: buf).drop (min (4096 - va.toNat % 4096) (b :: buf).length))) Q E
        (m.storeBytes f (va.toNat % 4096)
          ((b :: buf).take (min (4096 - va.toNat % 4096) (b :: buf).length)))) :
    wp (copyoutLoop d (n + 1) va (b :: buf)) Q E m := by
  obtain ⟨t, ht⟩ := Option.ne_none_iff_exists'.1 ht
  have hbase : (pgRoundDown va).toNat / 4096 = k := by
    rw [toNat_pgRoundDown]
    omega
  rw [copyoutLoop, wp_bind, wp, uva2ka_look d hbase, ht]
  cases hu : userFrame (pteAt m d k) with
  | none => exact hnone hu
  | some f =>
    simp only [wp_bind, wp_update, toNat_sub_pgRoundDown]
    exact hsome f hu

theorem copyout_null (hk : va.toNat / 4096 = k) (ht : tableAt m d (dirIdx k) = none)
    (hbuf : buf ≠ []) : copyout d va buf m = (.error .nullPte, m) := by
  obtain ⟨b, buf, rfl⟩ := exists_cons_of_ne_nil hbuf
  have hbase : (pgRoundDown va).toNat / 4096 = k := by
    rw [toNat_pgRoundDown]
    omega
  have hlook := uva2ka_look d hbase m
  rw [ht] at hlook
  exact bind_of_error hlook

def Guarded (m : Mem) (d : ℕ) : Prop :=
  ∀ k, 2 ^ 19 ≤ k → k < 2 ^ 20 → user (pteAt m d k) = false

theorem Guarded.present_of_userFrame (hg : Guarded m d) (hk : k < 2 ^ 20)
    (hu : userFrame (pteAt m d k) = some f) :
    k < 2 ^ 19 ∧ present (pteAt m d k) = true ∧ pteFrame (pteAt m d k) = f := by
  obtain ⟨hp, huser, hframe⟩ := userFrame_eq_some.1 hu
  refine ⟨Nat.lt_of_not_le fun hle => ?_, hp, hframe⟩
  simp [hg k hle hk] at huser

/-- The loop of `copyout`, by induction on the rounds: whatever the address, only pages of the
user half are stored into. -/
theorem copyoutLoop_spec (hd : dirs h = some d) (n : ℕ) (hn : buf.length ≤ n)
    (hf : Frames lk dirs others loose m) (hg : Guarded m d) :
    wp (copyoutLoop d n va buf) (fun r m' => (r = 0 ∨ r = -1) ∧
      Moves lk others (span h 0 (2 ^ 19)) dirs dirs loose m m') (fun e _ => e = .nullPte) m := by
  induction n generalizing va buf m with
  | zero =>
    obtain rfl := eq_nil_of_length_eq_zero (Nat.le_zero.1 hn)
    exact ⟨.inl rfl, Moves.refl hf⟩
  | succ n ih =>
    cases buf with
    | nil => exact ⟨.inl rfl, Moves.refl hf⟩
    | cons b buf =>
      by_cases ht : tableAt m d (dirIdx (va.toNat / 4096)) = none
      · have hbase : (pgRoundDown va).toNat / 4096 = va.toNat / 4096 := by
          rw [toNat_pgRoundDown]
          omega
        have hlook := uva2ka_look d hbase m
        rw [ht] at hlook
        rw [copyoutLoop, wp, bind_of_error hlook]
      refine copyoutLoop_round rfl ht (fun _ => ⟨.inr rfl, Moves.refl hf⟩) fun f hu => ?_
      obtain ⟨hk, hp, rfl⟩ := hg.present_of_userFrame (by omega) hu
      have hstore := fun off bytes => Moves.storeBytes hf hd hk hp off bytes
      obtain ⟨-, -, hptes⟩ := (hstore _ _).same (span_disjoint_nodes h 0 (2 ^ 19)) hd
      refine wp_mono_post (ih ?_ (hstore _ _).frames ?_) ?_
      · rw [length_drop]
        omega
      · intro k hlo hhi
        rw [hptes]
        exact hg k hlo hhi
      · exact fun r m' hpost => ⟨hpost.1, (hstore _ _).trans hpost.2⟩

theorem copyout_spec (hf : Frames lk dirs others loose m) (hd : dirs h = some d)
    (hg : Guarded m d) :
    wp (copyout d va buf) (fun r m' => (r = 0 ∨ r = -1) ∧
      Moves lk others (span h 0 (2 ^ 19)) dirs dirs loose m m') (fun e _ => e = .nullPte) m :=
  copyoutLoop_spec hd _ le_rfl hf hg

theorem copyoutLoop_nil (d n : ℕ) (va : BitVec 32) : copyoutLoop d n va [] = pure 0 := by
  cases n <;> rfl

theorem copyout_inside (hk : va.toNat / 4096 = k) (hu : userFrame (pteAt m d k) = some f)
    (hin : va.toNat % 4096 + buf.length ≤ 4096) (hbuf : buf ≠ []) :
    copyout d va buf m = (.ok 0, m.storeBytes f (va.toNat % 4096) buf) := by
  obtain ⟨b, buf, rfl⟩ := exists_cons_of_ne_nil hbuf
  obtain ⟨t, ht⟩ := tableAt_of_present (userFrame_eq_some.1 hu).1
  have hbase : (pgRoundDown va).toNat / 4096 = k := by
    rw [toNat_pgRoundDown]
    omega
  have hlook := uva2ka_look d hbase m
  have hmin : min (pgSize - va.toNat % 4096) (b :: buf).length = (b :: buf).length := by
    rw [pgSize]
    omega
  rw [ht, hu] at hlook
  rw [copyout, length_cons, copyoutLoop, bind_of_ok hlook]
  simp only [toNat_sub_pgRoundDown, hmin, take_length, drop_length, copyoutLoop_nil]
  rfl

/-- `copyout` that would have to go on at a page which is not for users returns `-1`. -/
theorem copyoutLoop_blocked {g : ℕ} (hd : dirs h = some d) (n : ℕ) (hn : buf.length ≤ n)
    (hf : Frames lk dirs others loose m) (hg : g < 2 ^ 19) (hva : va.toNat / 4096 ≤ g)
    (ht : ∀ k ≤ g, tableAt m d (dirIdx k) ≠ none) (hu : userFrame (pteAt m d g) = none)
    (hreach : 4096 * g < va.toNat + buf.length) (hbuf : buf ≠ []) :
    wp (copyoutLoop d n va buf) (fun r _ => r = -1) (fun _ _ => False) m := by
  induction n generalizing va buf m with
  | zero => exact absurd (eq_nil_of_length_eq_zero (Nat.le_zero.1 hn)) hbuf
  | succ n ih =>
    obtain ⟨b, buf, rfl⟩ := exists_cons_of_ne_nil hbuf
    refine copyoutLoop_round rfl (ht _ hva) (fun _ => rfl) fun f hframe => ?_
    have hne : va.toNat / 4096 ≠ g := by
      intro heq
      simp [heq, hu] at hframe
    obtain ⟨hp, -, rfl⟩ := userFrame_eq_some.1 hframe
    have hk : va.toNat / 4096 < 2 ^ 19 := by omega
    have hstore := fun off bytes => Moves.storeBytes hf hd hk hp off bytes
    obtain ⟨-, htables, hptes⟩ := (hstore _ _).same (span_disjoint_nodes h 0 (2 ^ 19)) hd
    have hnext : (pgRoundDown va + 4096).toNat = 4096 * (va.toNat / 4096 + 1) := by
      rw [toNat_add_page (by rw [toNat_pgRoundDown]; omega), toNat_pgRoundDown]
      omega
    -- the page ends before the bytes do
    have hmin : min (4096 - va.toNat % 4096) (b :: buf).length = 4096 - va.toNat % 4096 := by
      omega
    refine ih ?_ (hstore _ _).frames ?_ (fun k hk => by rw [htables]; exact ht k hk)
      (by rw [hptes]; exact hu) ?_ ?_
    · rw [length_drop, hmin]
      omega
    · omega
    · rw [hnext, length_drop, hmin]
      omega
    · rw [ne_eq, drop_eq_nil_iff, hmin]
      omega

theorem copyout_blocked {g : ℕ} (hf : Frames lk dirs others loose m) (hd : dirs h = some d)
    (hg : g < 2 ^ 19) (hva : va.toNat / 4096 ≤ g) (ht : ∀ k ≤ g, tableAt m d (dirIdx k) ≠ none)
    (hu : userFrame (pteAt m d g) = none) (hreach : 4096 * g < va.toNat + buf.length)
    (hbuf : buf ≠ []) : wp (copyout d va buf) (fun r _ => r = -1) (fun _ _ => False) m :=
  copyoutLoop_blocked hd _ le_rfl hf hg hva ht hu hreach hbuf

theorem copyout_kernel (hk : va.toNat / 4096 = k) (ht : tableAt m d (dirIdx k) ≠ none)
    (hu : userFrame (pteAt m d k) = none) (hbuf : buf ≠ []) :
    copyout d va buf m = (.ok (-1), m) := by
  obtain ⟨b, buf, rfl⟩ := exists_cons_of_ne_nil hbuf
  obtain ⟨t, ht⟩ := Option.ne_none_iff_exists'.1 ht
  have hbase : (pgRoundDown va).toNat / 4096 = k := by
    rw [toNat_pgRoundDown]
    omega
  have hlook := uva2ka_look d hbase m
  rw [ht, hu] at hlook
  rw [copyout, length_cons, copyoutLoop, bind_of_ok hlook]
  rfl

end CopyOut

end Xv6.Vm
