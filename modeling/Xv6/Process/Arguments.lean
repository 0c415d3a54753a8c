import Mathlib.Data.List.GetD
import Mathlib.Order.Interval.Set.Disjoint
import Mathlib.Tactic.IntervalCases
import Xv6.Process.Stack

/-!
# The arguments of a program

The frame that `exec` pushes after the strings: a return address, the number of arguments, the
address of the array of pointers, and the array. `Framed` is what is then found on the stack
page, and `Passed` what the program reads through its directory.
-/

namespace Xv6.Process

open Routine Vm Function Option Nat

variable {H O : Type} {lk : Link} {others : O → Option ℕ} {dirs : H → Option ℕ} {loose : Set ℕ}
  {h : H} {d g f : ℕ} {argv : List (List Byte)} {ptrs : List (BitVec 32)}

variable {a : BitVec 32} {b : ByteBlock pgSize}

theorem getD_flatMap_wordBytes (ws : List (BitVec 32)) (i : ℕ) :
    (ws.flatMap wordBytes).getD i 0 = (ws.getD (i / 4) 0).extractLsb' (8 * (i % 4)) 8 := by
  induction ws generalizing i with
  | nil => simp
  | cons w ws ih =>
    rw [List.flatMap_cons]
    rcases lt_or_ge i 4 with hi | hi
    · have hdiv : i / 4 = 0 := by omega
      have hmod : i % 4 = i := by omega
      have hlen : i < (wordBytes w).length := hi
      rw [List.getD_append _ _ _ _ hlen, hdiv, hmod]
      interval_cases i <;> rfl
    · have hlen : (wordBytes w).length ≤ i := hi
      have hdiv : i / 4 = (i - 4) / 4 + 1 := by omega
      have hmod : i % 4 = (i - 4) % 4 := by omega
      have hsub : i - (wordBytes w).length = i - 4 := rfl
      rw [List.getD_append_right _ _ _ _ hlen, hsub, ih, hdiv, hmod, List.getD_cons_succ]

theorem length_flatMap_wordBytes (ws : List (BitVec 32)) :
    (ws.flatMap wordBytes).length = 4 * ws.length := by
  induction ws with
  | nil => rfl
  | cons w ws ih =>
    have hfour : (wordBytes w).length = 4 := rfl
    rw [List.flatMap_cons, List.length_append, ih, hfour, List.length_cons]
    omega

theorem u32At_store_words {n : ℕ} (b : ByteBlock n) (ws : List (BitVec 32)) {off i : ℕ}
    (hi : i < ws.length) (hn : off + 4 * ws.length ≤ n) :
    (b.store off (ws.flatMap wordBytes).length fun i => (ws.flatMap wordBytes).getD i 0).u32At
      (off + 4 * i) = ws.getD i 0 := by
  have hstore : (b.store off (ws.flatMap wordBytes).length fun i =>
      (ws.flatMap wordBytes).getD i 0) = b.setU32s off fun j : Fin ws.length => ws.get j := by
    rw [ByteBlock.setU32s, length_flatMap_wordBytes]
    congr 1
    funext i
    rw [getD_flatMap_wordBytes]
    split_ifs with hlt
    · rw [List.getD_eq_getElem _ _ hlt]
      rfl
    · rw [List.getD_eq_default _ _ (by omega)]
      simp
  rw [hstore]
  have hread := ByteBlock.u32At_setU32s b (fun j : Fin ws.length => ws.get j) hn ⟨i, hi⟩
  rw [hread, List.getD_eq_getElem _ _ hi]
  rfl

section Frame

/-- The strings and the frame below them, on a page that starts at `base`. -/
structure Framed (b : ByteBlock pgSize) (base top esp : ℕ) (ptrs : List (BitVec 32))
    (argv : List (List Byte)) : Prop where
  low : base ≤ esp
  pushed : Pushed b base top (esp + 4 * (argv.length + 4)) ptrs argv
  words : ∀ i < argv.length + 4, b.u32At (esp - base + 4 * i) =
    (ustack (BitVec.ofNat 32 (esp + 4 * (argv.length + 4))) ptrs).getD i 0

variable {m m' : Mem} {sz sp : BitVec 32}

theorem length_ustack (sp : BitVec 32) (ptrs : List (BitVec 32)) :
    (ustack sp ptrs).length = ptrs.length + 4 := by
  simp [ustack]

theorem Pushed.frame {base top : ℕ} {esp : BitVec 32} (hp : Pushed b base top sp.toNat ptrs argv)
    (htop : top = base + 4096) (hroom : base + 4 * (argv.length + 4) ≤ sp.toNat)
    (hesp : esp.toNat = sp.toNat - 4 * (argv.length + 4)) :
    Framed (b.store (esp.toNat - base) ((ustack sp ptrs).flatMap wordBytes).length
      fun i => ((ustack sp ptrs).flatMap wordBytes).getD i 0) base top esp.toNat ptrs argv := by
  have hhigh := hp.high
  have hlength : (ustack sp ptrs).length = argv.length + 4 := by
    rw [length_ustack, hp.strings.length_eq]
  have hbytes : ((ustack sp ptrs).flatMap wordBytes).length = 4 * (argv.length + 4) := by
    rw [length_flatMap_wordBytes, hlength]
  have hsp : esp.toNat + 4 * (argv.length + 4) = sp.toNat := by omega
  refine ⟨by omega, ?_, fun i hi => ?_⟩
  · rw [hsp]
    refine ⟨hp.low, hp.high, hp.aligned, hp.strings.imp fun a arg hs => ?_, hp.apart⟩
    exact hs.store _ le_rfl (by omega)
  · rw [u32At_store_words b _ (by omega) (by rw [hlength, pgSize]; omega), hsp,
      BitVec.ofNat_toNat, BitVec.setWidth_eq]

/-- What pushing the arguments leaves, if it returns. -/
structure FramePushed (lk : Link) (others : O → Option ℕ) (dirs : H → Option ℕ) (loose : Set ℕ)
    (h : H) (d g f : ℕ) (sz : BitVec 32) (argv : List (List Byte)) (m : Mem)
    (r : Option (BitVec 32)) (m' : Mem) : Prop where
  moves : Moves lk others (span h 0 (2 ^ 19)) dirs dirs loose m m'
  inside : ∀ esp, r = some esp → ∀ f' ≠ f, m'.page f' = m.page f'
  ready : ∀ esp, r = some esp → StackReady m' d sz g f
  framed : ∀ esp, r = some esp →
    ∃ ptrs, Framed (m'.page f) (4096 * (g + 1)) sz.toNat esp.toNat ptrs argv
  short : r = none → 4096 < stackSize argv + 4 * (argv.length + 4)

theorem pushed_nil (hr : StackReady m d sz g f) :
    Pushed (m.page f) (4096 * (g + 1)) sz.toNat sz.toNat [] [] := by
  have hsize := hr.size
  exact ⟨by omega, le_rfl, by omega, .nil, .nil⟩

/-- The whole stack setup after the guard page: it returns unless some string is wild. -/
theorem pushFrame_spec (hr : StackReady m d sz g f) (hf : Frames lk dirs others loose m)
    (hd : dirs h = some d) (hlen : ∀ arg ∈ argv, arg.length < 2 ^ 31)
    (hcount : argv.length ≤ maxArg) :
    wp (pushFrame d argv sz) (fun r m' =>
      FramePushed lk others dirs loose h d g f sz argv m r m' ∧
        ¬ WildFrom (4096 * (g + 1)) sz.toNat argv)
      (fun e _ => e = .nullPte ∧ WildFrom (4096 * (g + 1)) sz.toNat argv) m := by
  have hbad : ∀ esp, (none : Option (BitVec 32)) ≠ some esp := fun _ => (some_ne_none _).symm
  rw [pushFrame, wp_bind]
  refine wp_mono_post (pushArgs_spec hd argv hr hf (pushed_nil hr) hlen (by omega)) ?_
  have hsize := hr.size
  rintro (- | ⟨sp, ptrs⟩) m₁ ⟨hargs, htame, hshort, hleft⟩
  · have hfew := hshort rfl
    exact ⟨⟨hargs.moves, fun esp heq => absurd heq (hbad esp),
      fun esp heq => absurd heq (hbad esp), fun esp heq => absurd heq (hbad esp),
      fun _ => by omega⟩, htame⟩
  have hready := hargs.ready sp ptrs rfl
  have hpushed := hargs.pushed sp ptrs rfl
  have hleft := hleft sp ptrs rfl
  rw [List.nil_append] at hpushed
  have hlow := hpushed.low
  have hlength : (ustack sp ptrs).length = argv.length + 4 := by
    rw [length_ustack, hpushed.strings.length_eq]
  have hsub : (sp - BitVec.ofNat 32 (4 * (ustack sp ptrs).length)).toNat =
      sp.toNat - 4 * (argv.length + 4) := by
    have hmax : argv.length ≤ 32 := hcount
    rw [hlength, BitVec.toNat_sub, BitVec.toNat_ofNat]
    omega
  have hbytes : ((ustack sp ptrs).flatMap wordBytes).length = 4 * (argv.length + 4) := by
    rw [length_flatMap_wordBytes, hlength]
  have hbuf : (ustack sp ptrs).flatMap wordBytes ≠ [] := by
    intro hnil
    rw [hnil, List.length_nil] at hbytes
    omega
  rw [wp_bind]
  generalize hesp : sp - BitVec.ofNat 32 (4 * (ustack sp ptrs).length) = esp at hsub ⊢
  rcases lt_or_ge sp.toNat (4096 * (g + 1) + 4 * (argv.length + 4)) with hbelow | hroom
  · -- the frame would start on the guard page
    have hmax : argv.length ≤ 32 := hcount
    rw [wp, copyout_kernel (show esp.toNat / 4096 = g by omega)
      (hready.table_ne_none (le_succ g)) hready.guard hbuf]
    exact ⟨⟨hargs.moves, fun esp heq => absurd heq (hbad esp),
      fun esp heq => absurd heq (hbad esp), fun esp heq => absurd heq (hbad esp),
      fun _ => by omega⟩, htame⟩
  · have hmod : esp.toNat % 4096 = esp.toNat - 4096 * (g + 1) := by omega
    rw [wp, copyout_inside (show esp.toNat / 4096 = g + 1 by omega) hready.page (by omega) hbuf,
      hmod]
    obtain ⟨hmoves, hready'⟩ := hready.store hargs.moves.frames hd (esp.toNat - 4096 * (g + 1))
      ((ustack sp ptrs).flatMap wordBytes)
    refine ⟨⟨hargs.moves.trans hmoves, fun esp' _ f' hne => ?_, fun _ _ => hready',
      fun esp' heq => ⟨ptrs, ?_⟩, fun heq => absurd heq (some_ne_none _)⟩, htame⟩
    · rw [page_storeBytes_of_ne _ _ _ hne, hargs.inside sp ptrs rfl f' hne]
    · cases heq
      rw [page_storeBytes_self]
      exact hpushed.frame (by omega) hroom hsub

end Frame

section Passed

def userByte (m : Mem) (d : ℕ) (a : BitVec 32) : Option Byte :=
  (userFrame (pteAt m d (a.toNat / pgSize))).map fun f => (m.page f).byteAt (a.toNat % pgSize)

def userWord (m : Mem) (d : ℕ) (a : BitVec 32) : Option (BitVec 32) :=
  (userFrame (pteAt m d (a.toNat / pgSize))).map fun f => (m.page f).u32At (a.toNat % pgSize)

/-- The address of a copy of a string, with its NUL, in the last page of the space. -/
structure CopyAt (m : Mem) (d : ℕ) (sz a : BitVec 32) (arg : List Byte) : Prop where
  aligned : a.toNat % 4 = 0
  low : sz.toNat - 4096 ≤ a.toNat
  high : a < sz
  bytes : ∀ j ≤ arg.length, userByte m d (a + BitVec.ofNat 32 j) = some ((arg ++ [0]).getD j 0)

def regions (esp : BitVec 32) (ptrs : List (BitVec 32)) (argv : List (List Byte)) :
    List (Set ℕ) :=
  Set.Ico esp.toNat (esp.toNat + 12) ::
    Set.Ico (esp.toNat + 12) (esp.toNat + 12 + 4 * (argv.length + 1)) ::
      (ptrs.zip argv).map fun x => Set.Ico x.1.toNat (x.1.toNat + (x.2.length + 1))

/-- What a program finds when it starts with stack pointer `esp`; `ptrs` are the pointers of its
`argv`. -/
structure Passed (m : Mem) (d : ℕ) (sz esp : BitVec 32) (ptrs : List (BitVec 32))
    (argv : List (List Byte)) : Prop where
  argc : userWord m d (esp + 4) = some (BitVec.ofNat 32 argv.length)
  array : userWord m d (esp + 8) = some (esp + 12)
  pointer : ∀ i < argv.length, userWord m d (esp + 12 + BitVec.ofNat 32 (4 * i)) = ptrs[i]?
  null : userWord m d (esp + 12 + BitVec.ofNat 32 (4 * argv.length)) = some 0
  strings : List.Forall₂ (CopyAt m d sz) ptrs argv
  apart : (regions esp ptrs argv).Pairwise Disjoint

variable {m : Mem} {sz esp : BitVec 32}

section

variable (hr : StackReady m d sz g f) (hlo : 4096 * (g + 1) ≤ a.toNat) (hhi : a.toNat < sz.toNat)
include hr hlo hhi

theorem StackReady.place :
    a.toNat / pgSize = g + 1 ∧ a.toNat % pgSize = a.toNat - 4096 * (g + 1) := by
  have hsize := hr.size
  rw [pgSize]
  omega

theorem StackReady.userByte_eq :
    userByte m d a = some ((m.page f).byteAt (a.toNat - 4096 * (g + 1))) := by
  obtain ⟨hpage, hoff⟩ := hr.place hlo hhi
  rw [userByte, hpage, hr.page, map_some, hoff]

theorem StackReady.userWord_eq :
    userWord m d a = some ((m.page f).u32At (a.toNat - 4096 * (g + 1))) := by
  obtain ⟨hpage, hoff⟩ := hr.place hlo hhi
  rw [userWord, hpage, hr.page, map_some, hoff]

end

theorem toNat_add_ofNat {n : ℕ} (h : a.toNat + n < 2 ^ 32) :
    (a + BitVec.ofNat 32 n).toNat = a.toNat + n := by
  rw [BitVec.toNat_add, BitVec.toNat_ofNat]
  omega

theorem Framed.word (hframed : Framed (m.page f) (4096 * (g + 1)) sz.toNat esp.toNat ptrs argv)
    (hr : StackReady m d sz g f) {i : ℕ} (hi : i < argv.length + 4) :
    userWord m d (esp + BitVec.ofNat 32 (4 * i)) =
      some ((ustack (esp + BitVec.ofNat 32 (4 * (argv.length + 4))) ptrs).getD i 0) := by
  have hlow := hframed.low
  have hhigh := hframed.pushed.high
  have haddr := toNat_add_ofNat (a := esp) (n := 4 * i) (by omega)
  have htop : esp + BitVec.ofNat 32 (4 * (argv.length + 4)) =
      BitVec.ofNat 32 (esp.toNat + 4 * (argv.length + 4)) := by
    apply BitVec.eq_of_toNat_eq
    rw [toNat_add_ofNat (by omega), BitVec.toNat_ofNat, mod_eq_of_lt (by omega)]
  have hsub : esp.toNat + 4 * i - 4096 * (g + 1) = esp.toNat - 4096 * (g + 1) + 4 * i := by omega
  rw [hr.userWord_eq (by omega) (by omega), haddr, hsub, hframed.words i hi, htop]

theorem StringAt.copyAt (hr : StackReady m d sz g f) {arg : List Byte} {lo : ℕ}
    (hs : StringAt (m.page f) (4096 * (g + 1)) lo sz.toNat a arg) (hlo : 4096 * (g + 1) ≤ lo) :
    CopyAt m d sz a arg := by
  have hsize := hr.size
  have hlow := hs.low
  have hhigh := hs.high
  refine ⟨hs.aligned, by omega, BitVec.lt_def.2 (by omega), fun j hj => ?_⟩
  have haddr := toNat_add_ofNat (a := a) (n := j) (by omega)
  have hsub : a.toNat + j - 4096 * (g + 1) = a.toNat - 4096 * (g + 1) + j := by omega
  rw [hr.userByte_eq (by omega) (by omega), haddr, hsub, hs.bytes j hj]

theorem Framed.apart {base top : ℕ} (hframed : Framed b base top esp.toNat ptrs argv) :
    (regions esp ptrs argv).Pairwise Disjoint := by
  have hstring : ∀ x ∈ ptrs.zip argv, esp.toNat + 4 * (argv.length + 4) ≤ x.1.toNat := by
    rintro ⟨a, arg⟩ hmem
    exact ((List.forall₂_iff_zip.1 hframed.pushed.strings).2 hmem).low
  rw [regions, List.pairwise_cons, List.pairwise_cons, List.pairwise_map]
  refine ⟨fun S hS => ?_, fun S hS => ?_, hframed.pushed.apart.imp fun {x y} hlt => ?_⟩
  · rcases List.mem_cons.1 hS with rfl | hS
    · exact Set.Ico_disjoint_Ico_same
    · obtain ⟨x, hx, rfl⟩ := List.mem_map.1 hS
      have hle := hstring x hx
      exact Set.Ico_disjoint_Ico.2 (by omega)
  · obtain ⟨x, hx, rfl⟩ := List.mem_map.1 hS
    have hle := hstring x hx
    exact Set.Ico_disjoint_Ico.2 (by omega)
  · exact Set.Ico_disjoint_Ico.2 (by omega)

/-- The frame on the stack page is what the program needs. -/
theorem Framed.passed (hr : StackReady m d sz g f)
    (hframed : Framed (m.page f) (4096 * (g + 1)) sz.toNat esp.toNat ptrs argv) :
    Passed m d sz esp ptrs argv := by
  have hlength := hframed.pushed.strings.length_eq
  have hword : ∀ {i : ℕ}, i < argv.length + 4 → _ := fun hi => hframed.word hr hi
  have hptr : ∀ {i : ℕ}, i < argv.length + 1 →
      userWord m d (esp + 12 + BitVec.ofNat 32 (4 * i)) = some ((ptrs ++ [0]).getD i 0) := by
    intro i hi
    have haddr : esp + 12 + BitVec.ofNat 32 (4 * i) = esp + BitVec.ofNat 32 (4 * (i + 3)) := by
      rw [Nat.mul_add, BitVec.ofNat_add, BitVec.add_assoc, BitVec.add_comm 12]
      rfl
    rw [haddr, hword (by omega)]
    rfl
  refine ⟨?_, ?_, fun i hi => ?_, ?_, ?_, hframed.apart⟩
  · have hsecond : userWord m d (esp + 4) = some (BitVec.ofNat 32 ptrs.length) :=
      hword (i := 1) (by omega)
    rw [hsecond, hlength]
  · have harray : esp + BitVec.ofNat 32 (4 * (argv.length + 4)) -
        (BitVec.ofNat 32 argv.length + 1) * 4 = esp + 12 := by
      bv_omega
    have hthird : userWord m d (esp + 8) = some (esp + BitVec.ofNat 32 (4 * (argv.length + 4)) -
        (BitVec.ofNat 32 ptrs.length + 1) * 4) := hword (i := 2) (by omega)
    rw [hthird, hlength, harray]
  · rw [hptr (by omega), List.getD_append _ _ _ _ (by omega), List.getD_eq_getElem?_getD,
      List.getElem?_eq_getElem (by omega)]
    rfl
  · rw [hptr (by omega), List.getD_append_right _ _ _ _ (by omega), hlength, Nat.sub_self]
    rfl
  · exact hframed.pushed.strings.imp fun a arg hs =>
      hs.copyAt hr (Nat.le_trans hframed.low (Nat.le_add_right _ _))

end Passed

section Wild

/-- Some string, after others that fit in a page, is so long that `sp` goes from the size of the
image through zero, and past the devices into the addresses that have no table. -/
def Wild (size : ℕ) (argv : List (List Byte)) : Prop :=
  ∃ pre arg post, argv = pre ++ arg :: post ∧ stackSize pre ≤ 4096 ∧
    size + 0x2000000 < stackSize pre + slotSize arg.length ∧
    stackSize pre + slotSize arg.length ≤ size + 0x72000000

theorem wildFrom_iff {base : ℕ} (args : List (List Byte)) {sp : ℕ} :
    WildFrom base sp args ↔ ∃ pre arg post, args = pre ++ arg :: post ∧
      (pre = [] ∨ base + stackSize pre ≤ sp) ∧
      sp + 0x2000000 < stackSize pre + slotSize arg.length ∧
      stackSize pre + slotSize arg.length ≤ sp + 0x72000000 := by
  induction args generalizing sp with
  | nil =>
    refine iff_of_false id ?_
    rintro ⟨pre, arg, post, heq, -⟩
    exact absurd heq.symm (List.append_ne_nil_of_right_ne_nil _ (List.cons_ne_nil _ _))
  | cons arg args ih =>
    have hcons := stackSize_cons arg
    have hnil : stackSize [] = 0 := rfl
    rw [WildFrom]
    split_ifs with hroom
    · rw [ih]
      constructor
      · rintro ⟨pre, a, post, rfl, hfits, hlo, hhi⟩
        refine ⟨arg :: pre, a, post, rfl, .inr ?_, ?_⟩
        · rcases hfits with rfl | hfits
          · rw [hcons, hnil]
            omega
          · rw [hcons]
            omega
        · rw [hcons]
          omega
      · rintro ⟨pre, a, post, heq, hfits, hlo, hhi⟩
        cases pre with
        | nil =>
          obtain ⟨rfl, rfl⟩ := List.cons.inj heq
          omega
        | cons b pre =>
          obtain ⟨rfl, rfl⟩ := List.cons.inj heq
          have hfits := hfits.resolve_left (List.cons_ne_nil _ _)
          rw [hcons] at hfits hlo hhi
          exact ⟨pre, a, post, rfl, .inr (by omega), by omega, by omega⟩
    · rw [Gap]
      constructor
      · rintro ⟨hlo, hhi⟩
        exact ⟨[], arg, args, rfl, .inl rfl, by omega, by omega⟩
      · rintro ⟨pre, a, post, heq, hfits, hlo, hhi⟩
        cases pre with
        | nil =>
          obtain ⟨rfl, rfl⟩ := List.cons.inj heq
          omega
        | cons b pre =>
          obtain ⟨rfl, rfl⟩ := List.cons.inj heq
          have hfits := hfits.resolve_left (List.cons_ne_nil _ _)
          rw [hcons] at hfits
          omega

theorem Wild.long {size : ℕ} {argv : List (List Byte)} (hwild : Wild size argv) :
    0x2000000 < stackSize argv := by
  obtain ⟨pre, arg, post, rfl, -, hlo, -⟩ := hwild
  have hsum : stackSize (pre ++ arg :: post) =
      stackSize pre + (slotSize arg.length + stackSize post) := by
    rw [← stackSize_cons, stackSize, List.map_append, List.sum_append, stackSize, stackSize]
  omega

theorem wildFrom_size {m : Mem} {d g f : ℕ} {sz : BitVec 32} (hr : StackReady m d sz g f)
    (argv : List (List Byte)) : WildFrom (4096 * (g + 1)) sz.toNat argv ↔ Wild sz.toNat argv := by
  have hsize := hr.size
  rw [wildFrom_iff]
  refine exists_congr fun pre => exists_congr fun arg => exists_congr fun post =>
    and_congr_right fun _ => and_congr_left fun _ => ?_
  constructor
  · rintro (rfl | hfits)
    · exact zero_le _
    · omega
  · intro hfits
    exact .inr (by omega)

/-- The arguments are pushed without following a null pointer, and where this succeeds only the
stack page has been stored into. -/
def PushSafe (m : Mem) (d : ℕ) (sz : BitVec 32) (argv : List (List Byte)) : Prop :=
  ∃ r m', pushFrame d argv sz m = (.ok r, m') ∧ (r ≠ none →
    ∀ f, f ≠ pteFrame (pteAt m d (sz.toNat / 4096 - 1)) → m'.page f = m.page f)

variable [DecidableEq H] {m m₁ m₂ : Mem} {sz top : BitVec 32} {im : Image} {file : List Byte}

omit [DecidableEq H] in
theorem StackReady.pushSafe_iff (hr : StackReady m d sz g f) (hf : Frames lk dirs others loose m)
    (hd : dirs h = some d) (hlen : ∀ arg ∈ argv, arg.length < 2 ^ 31)
    (hcount : argv.length ≤ maxArg) : PushSafe m d sz argv ↔ ¬ Wild sz.toNat argv := by
  have hsize := hr.size
  have hlast : sz.toNat / 4096 - 1 = g + 1 := by omega
  have hspec := pushFrame_spec hr hf hd hlen hcount
  rw [← wildFrom_size hr]
  constructor
  · rintro ⟨r, m', hrun, -⟩
    rw [wp, hrun] at hspec
    exact hspec.2
  · intro htame
    obtain ⟨r, m', hrun, hpushed, -⟩ := wp_returns hspec fun _ _ hstop => htame hstop.2
    refine ⟨r, m', hrun, fun hne f' hf' => ?_⟩
    obtain ⟨esp, rfl⟩ := ne_none_iff_exists'.1 hne
    rw [hlast, hr.present.2] at hf'
    exact hpushed.inside esp rfl f' hf'

-- it is only used through its specification, and unfolding it reaches comparisons with `KERNBASE`
attribute [local irreducible] stackPages

theorem stackReady_of_runs (hf : Frames lk dirs others loose m) (hnone : dirs h = none)
    (hload : loadImage lk file m = (.ok (some im), m₁))
    (hstack : stackPages lk im.pgdir im.sz m₁ = (.ok (some top), m₂)) :
    ∃ f, StackReady m₂ im.pgdir top (pagesOf im.sz) f ∧
      Frames lk (update dirs h (some im.pgdir)) others loose m₂ := by
  have hd : update dirs h (some im.pgdir) h = some im.pgdir := update_self ..
  obtain ⟨hmoves, hspace, hfull⟩ := wp_ok (loadImage_spec hf hnone file) hload
  have hpages := wp_ok (stackPages_spec hmoves.frames hd hspace hfull) hstack
  obtain ⟨f, hready⟩ := hpages.ready top rfl
  exact ⟨f, hready, hpages.moves.frames⟩

/-- After any file has been loaded and the stack has been allocated, the arguments are pushed
safely if and only if none of them is wild for the size of the image. -/
theorem pushFrame_safe_iff (hf : Frames lk dirs others loose m) (hnone : dirs h = none)
    (hload : loadImage lk file m = (.ok (some im), m₁))
    (hstack : stackPages lk im.pgdir im.sz m₁ = (.ok (some top), m₂))
    (hargc : argv.length < maxArg) (hlen : ∀ arg ∈ argv, arg.length < 2 ^ 31) :
    PushSafe m₂ im.pgdir top argv ↔ ¬ Wild top.toNat argv := by
  obtain ⟨f, hready, hframes⟩ := stackReady_of_runs hf hnone hload hstack
  exact hready.pushSafe_iff hframes (update_self h (some im.pgdir) dirs) hlen (le_of_lt hargc)

/-- A file that is an ELF header without program headers. -/
def emptyProgram : List Byte := [0x7f, 0x45, 0x4c, 0x46] ++ List.replicate 48 0

theorem loadImage_empty (hf : Frames lk dirs others loose m) (hnone : dirs h = none)
    (hstock : 65 ≤ m.stock) :
    wp (loadImage lk emptyProgram)
      (fun r m₁ => ∃ im, r = some im ∧ im.sz = 0 ∧ m.stock = m₁.stock + 65)
      (fun _ _ => False) m := by
  rw [loadImage, if_neg (by decide), if_neg (by decide), wp_bind]
  refine wp_mono_ok (setupkvm_spec hf hnone) ?_
  rintro (- | d) m₁ hpost
  · omega
  · exact ⟨⟨d, 0, 0⟩, rfl, rfl, by omega⟩

/-- The empty program with its stack, in a memory with enough frames. -/
theorem exists_stack : ∃ m im m₁ top m₂,
    Frames smallLink (fun _ : Unit => none) (fun _ : Unit => none) ∅ m ∧
      loadImage smallLink emptyProgram m = (.ok (some im), m₁) ∧
      stackPages smallLink im.pgdir im.sz m₁ = (.ok (some top), m₂) ∧ top.toNat = 8192 := by
  obtain ⟨m, hfree, hstock⟩ : ∃ m, Frames smallLink (fun _ : Unit => none)
      (fun _ : Unit => none) ∅ m ∧ m.stock = 57086 :=
    ⟨freshMem, frames_allFree smallLink _ _, stock_freshMem⟩
  obtain ⟨r, m₁, hrun, ⟨im, rfl, hsz, hleft⟩, hmoves, hspace, hfull⟩ :=
    wp_returns (wp_and (loadImage_empty (h := ()) hfree rfl (by omega))
      (loadImage_spec (h := ()) hfree rfl emptyProgram)) fun _ _ hstop => hstop.1
  have hd : update (fun _ : Unit => none) () (some im.pgdir) () = some im.pgdir :=
    update_self ..
  obtain ⟨r, m₂, hstack, hpages⟩ :=
    wp_returns (stackPages_spec hmoves.frames hd hspace hfull) fun _ _ => id
  have hzero : pagesOf im.sz = 0 := by
    rw [hsz]
    rfl
  cases r with
  | none =>
    have hshort := hpages.short rfl
    omega
  | some top =>
    obtain ⟨f, hready⟩ := hpages.ready top rfl
    have hsize := hready.size
    exact ⟨m, im, m₁, top, m₂, hfree, hrun, hstack, by omega⟩

theorem pushFrame_safe_iff_one : ∃ m im m₁ top m₂,
    loadImage smallLink emptyProgram m = (.ok (some im), m₁) ∧
      stackPages smallLink im.pgdir im.sz m₁ = (.ok (some top), m₂) ∧
      (PushSafe m₂ im.pgdir top [[0x6c, 0x73]] ↔ ¬ Wild top.toNat [[0x6c, 0x73]]) := by
  obtain ⟨m, im, m₁, top, m₂, hf, hload, hstack, -⟩ := exists_stack
  refine ⟨m, im, m₁, top, m₂, hload, hstack,
    pushFrame_safe_iff hf (h := ()) rfl hload hstack (by decide) fun arg harg => ?_⟩
  rw [List.mem_singleton.1 harg]
  decide

/-- One argument of 33566720 bytes. -/
theorem pushFrame_wild : ∃ m im m₁ top m₂,
    loadImage smallLink emptyProgram m = (.ok (some im), m₁) ∧
      stackPages smallLink im.pgdir im.sz m₁ = (.ok (some top), m₂) ∧
      ¬ PushSafe m₂ im.pgdir top [List.replicate 0x2003000 0x61] := by
  obtain ⟨m, im, m₁, top, m₂, hf, hload, hstack, htop⟩ := exists_stack
  refine ⟨m, im, m₁, top, m₂, hload, hstack, ?_⟩
  obtain ⟨f, hready, hframes⟩ := stackReady_of_runs hf (h := ()) rfl hload hstack
  have hlength : (List.replicate 0x2003000 (0x61 : Byte)).length = 0x2003000 :=
    List.length_replicate
  have hd : update (fun _ : Unit => none) () (some im.pgdir) () = some im.pgdir :=
    update_self ..
  generalize List.replicate 0x2003000 (0x61 : Byte) = arg at hlength ⊢
  rw [hready.pushSafe_iff hframes hd _ _, not_not]
  · refine ⟨[], arg, [], rfl, zero_le _, ?_, ?_⟩
    · rw [hlength, htop]
      decide
    · rw [hlength, htop]
      decide
  · intro arg' harg
    rw [List.mem_singleton.1 harg, hlength]
    decide
  · show 1 ≤ 32
    decide

end Wild

end Xv6.Process
