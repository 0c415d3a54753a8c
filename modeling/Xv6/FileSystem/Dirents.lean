import Mathlib.Data.List.GetD
import Xv6.FileSystem.Model

/-!
# Directories as finite maps

The bytes of a directory are a sequence of entries, some of them unused. `find` is what they are
for: it takes a name to an inode number and the offset of an entry. Names count up to `DIRSIZ`
bytes, padded with NUL, and on these `strncmp` and `strncpy` agree. As long as no two entries have
the same name, storing an entry in an unused place adds its name to the map, and clearing an entry
removes its name.
-/

namespace Xv6.FileSystem

open List BitVec Nat

section Names

variable {s t u : ℕ → BitVec 8}

def SameName (s t : ℕ → BitVec 8) : Prop := ∀ k < dirSiz, strncpy s k = strncpy t k

instance (s t : ℕ → BitVec 8) : Decidable (SameName s t) :=
  inferInstanceAs (Decidable (∀ k < dirSiz, _))

theorem strncpy_congr {k : ℕ} (h : ∀ j ≤ k, s j = t j) : strncpy s k = strncpy t k := by
  have hnul : (∃ j < k, s j = 0) ↔ ∃ j < k, t j = 0 :=
    exists_congr fun j => and_congr_right fun hj => by rw [h j (le_of_lt hj)]
  rw [strncpy, strncpy, h k (le_refl k)]
  exact if_congr hnul rfl rfl

theorem strncpy_of_nul {j k : ℕ} (hj : j < k) (h : s j = 0) : strncpy s k = 0 :=
  if_pos ⟨j, hj, h⟩

theorem strncpy_of_ne {k : ℕ} (h : ∀ j < k, s j ≠ 0) : strncpy s k = s k :=
  if_neg fun ⟨j, hj, hnul⟩ => h j hj hnul

theorem strncpy_strncpy (s : ℕ → BitVec 8) (k : ℕ) : strncpy (strncpy s) k = strncpy s k := by
  rw [strncpy]
  split_ifs with hnul
  · obtain ⟨j, hj, hzero⟩ := hnul
    by_cases hearlier : ∃ i < j, s i = 0
    · obtain ⟨i, hi, hs⟩ := hearlier
      rw [strncpy_of_nul (hi.trans hj) hs]
    · rw [strncpy, if_neg hearlier] at hzero
      rw [strncpy_of_nul hj hzero]
  · rfl

/-- The comparison from a position up to which the strings agree, by induction on the bytes that
are left. -/
theorem strncmp_eq_zero_iff (n : ℕ) : ∀ i, (∀ j < i, s j ≠ 0) → (∀ j < i, t j ≠ 0) →
    (strncmp s t i n = 0 ↔ ∀ k, i ≤ k → k < i + n → strncpy s k = strncpy t k) := by
  induction n with
  | zero => exact fun i _ _ => ⟨fun _ k hle hlt => by omega, fun _ => rfl⟩
  | succ n ih =>
    intro i hs ht
    rw [strncmp]
    split_ifs with heq
    · have hnext : ∀ (u : ℕ → BitVec 8), u i ≠ 0 → (∀ j < i, u j ≠ 0) → ∀ j < i + 1, u j ≠ 0 :=
        fun u hi hlt j hj => (Nat.lt_succ_iff_lt_or_eq.1 hj).elim (hlt j) fun h => h ▸ hi
      rw [ih (i + 1) (hnext s heq.1 hs) (hnext t (heq.2 ▸ heq.1) ht)]
      refine ⟨fun h k hle hlt => ?_, fun h k hle hlt => h k (by omega) (by omega)⟩
      rcases Nat.eq_or_lt_of_le hle with rfl | hlt'
      · rw [strncpy_of_ne hs, strncpy_of_ne ht, heq.2]
      · exact h k hlt' (by omega)
    · have hsub : ((s i).toNat : ℤ) - (t i).toNat = 0 ↔ s i = t i := by
        rw [Int.sub_eq_zero, Int.natCast_inj, toNat_inj]
      rw [hsub]
      refine ⟨fun h k hle hlt => ?_, fun h => ?_⟩
      · -- both strings end here
        have hnul : s i = 0 := not_not.1 fun hne => heq ⟨hne, h⟩
        rcases Nat.eq_or_lt_of_le hle with rfl | hlt'
        · rw [strncpy_of_ne hs, strncpy_of_ne ht, h]
        · rw [strncpy_of_nul hlt' hnul, strncpy_of_nul hlt' (h ▸ hnul)]
      · have hi := h i (Nat.le_refl i) (by omega)
        rwa [strncpy_of_ne hs, strncpy_of_ne ht] at hi

theorem namecmp_eq_zero_iff : namecmp s t = 0 ↔ SameName s t := by
  have hno : ∀ u : ℕ → BitVec 8, ∀ j < 0, u j ≠ 0 := fun _ j hj => absurd hj (not_lt_zero j)
  rw [namecmp, strncmp_eq_zero_iff dirSiz 0 (hno s) (hno t), zero_add]
  exact ⟨fun h k => h k (zero_le k), fun h k _ => h k⟩

theorem SameName.symm (h : SameName s t) : SameName t s := fun k hk => (h k hk).symm

theorem SameName.trans (h : SameName s t) (h' : SameName t u) : SameName s u :=
  fun k hk => (h k hk).trans (h' k hk)

theorem sameName_of_eq (h : ∀ k < dirSiz, s k = t k) : SameName s t :=
  fun _ hk => strncpy_congr fun j hj => h j (lt_of_le_of_lt hj hk)

theorem sameName_strncpy (s : ℕ → BitVec 8) : SameName (strncpy s) s :=
  fun _ _ => strncpy_strncpy s _

end Names

theorem decode_inum (de : Dirent) :
    (Dirent.decode ((List.range direntSize).map de.encode)).inum = de.inum := by
  have hlow : ((List.range direntSize).map de.encode).getD 0 0 = de.inum.extractLsb' 0 8 := rfl
  have hhigh : ((List.range direntSize).map de.encode).getD 1 0 = de.inum.extractLsb' 8 8 := rfl
  simp only [Dirent.decode, hlow, hhigh]
  apply eq_of_getLsbD_eq
  intro i hi
  simp only [getLsbD_or, getLsbD_shiftLeft, getLsbD_setWidth, getLsbD_extractLsb']
  grind

theorem decode_name (de : Dirent) {i : ℕ} (hi : i < dirSiz) :
    (Dirent.decode ((List.range direntSize).map de.encode)).name i = de.name i := by
  have hlt : 2 + i < ((List.range direntSize).map de.encode).length := by
    rw [length_map, length_range]
    simp only [direntSize]
    omega
  simp only [Dirent.decode]
  rw [getD_eq_getElem _ _ hlt, getElem_map, getElem_range, Dirent.encode,
    if_neg (by omega), Nat.add_sub_cancel_left]

section Entries

variable {D bytes : List (BitVec 8)} {s t : ℕ → BitVec 8} {g k : ℕ}

def dirent (D : List (BitVec 8)) (k : ℕ) : Dirent :=
  Dirent.decode ((List.range direntSize).map fun i => D.getD (direntSize * k + i) 0)

theorem decode_take_drop (hk : direntSize * k + direntSize ≤ D.length) :
    Dirent.decode ((D.drop (direntSize * k)).take direntSize) = dirent D k := by
  refine congrArg Dirent.decode (ext_getElem ?_ fun i hi hi' => ?_)
  · rw [length_take, length_drop, length_map, length_range]
    omega
  · rw [getElem_take, getElem_drop, getElem_map, getElem_range,
      getD_eq_getElem]

def Used (D : List (BitVec 8)) (k : ℕ) : Prop :=
  k < D.length / direntSize ∧ (dirent D k).inum ≠ 0

instance (D : List (BitVec 8)) (k : ℕ) : Decidable (Used D k) :=
  inferInstanceAs (Decidable (_ ∧ _))

def Names (D : List (BitVec 8)) (t : ℕ → BitVec 8) (k : ℕ) : Prop :=
  Used D k ∧ namecmp t (dirent D k).name = 0

instance (D : List (BitVec 8)) (t : ℕ → BitVec 8) (k : ℕ) : Decidable (Names D t k) :=
  inferInstanceAs (Decidable (_ ∧ _))

def find (D : List (BitVec 8)) (t : ℕ → BitVec 8) : Option (BitVec 16 × ℕ) :=
  ((List.range (D.length / direntSize)).find? fun k => decide (Names D t k)).map fun k =>
    ((dirent D k).inum, direntSize * k)

/-- The entries fill the directory, and a name has at most one of them. -/
structure Directory (D : List (BitVec 8)) : Prop where
  aligned : direntSize ∣ D.length
  unique : ∀ t k l, Names D t k → Names D t l → k = l

def DistinctNames (D : List (BitVec 8)) : Prop :=
  ∀ k l, Used D k → Used D l → (∀ i < dirSiz, (dirent D k).name i = (dirent D l).name i) → k = l

theorem Directory.distinctNames (h : Directory D) : DistinctNames D := by
  intro k l hk hl hname
  refine h.unique (dirent D k).name k l ⟨hk, ?_⟩ ⟨hl, ?_⟩
  · exact namecmp_eq_zero_iff.2 fun _ _ => rfl
  · exact namecmp_eq_zero_iff.2 (sameName_of_eq hname)

theorem directory_nil : Directory [] :=
  ⟨Nat.dvd_zero _, fun _ k _ hk => absurd hk.1.1 (Nat.not_lt_zero k)⟩

theorem find_eq_none (h : ∀ k, ¬ Names D t k) : find D t = none := by
  rw [find, Option.map_eq_none_iff, List.find?_eq_none]
  exact fun k _ hk => h k (of_decide_eq_true hk)

theorem Directory.find_eq_some (h : Directory D) (hk : Names D t k) :
    find D t = some ((dirent D k).inum, direntSize * k) := by
  rw [find]
  cases hfind : (List.range (D.length / direntSize)).find? fun k => decide (Names D t k) with
  | none =>
    have hnot := List.find?_eq_none.1 hfind k (mem_range.2 hk.1.1)
    exact absurd (decide_eq_true hk) hnot
  | some l =>
    have hl := List.find?_some hfind
    rw [h.unique t k l hk (of_decide_eq_true hl), Option.map_some]

theorem names_of_find {x : BitVec 16 × ℕ} (h : find D t = some x) :
    ∃ k, Names D t k ∧ x = ((dirent D k).inum, direntSize * k) := by
  obtain ⟨k, hk, rfl⟩ := Option.map_eq_some_iff.1 h
  have hname := List.find?_some hk
  exact ⟨k, of_decide_eq_true hname, rfl⟩

/-- The directory with the bytes of an entry stored in place `g`. -/
def storeEntry (D : List (BitVec 8)) (g : ℕ) (bytes : List (BitVec 8)) : List (BitVec 8) :=
  D.take (direntSize * g) ++ bytes ++ D.drop (direntSize * g + direntSize)

section

variable (hg : direntSize * g ≤ D.length) (hbytes : bytes.length = direntSize)
include hg hbytes

theorem length_storeEntry :
    (storeEntry D g bytes).length = max D.length (direntSize * g + direntSize) := by
  rw [storeEntry, length_append, length_append, length_take, length_drop,
    hbytes, min_eq_left hg]
  omega

theorem getD_storeEntry {i : ℕ} (hi : i < direntSize) :
    (storeEntry D g bytes).getD (direntSize * k + i) 0 =
      if k = g then bytes.getD i 0 else D.getD (direntSize * k + i) 0 := by
  simp only [storeEntry, getD_eq_getElem?_getD, List.getElem?_append, length_append,
    length_take, List.getElem?_take, List.getElem?_drop, hbytes, min_eq_left hg]
  split_ifs <;> grind

theorem dirent_storeEntry (k : ℕ) :
    dirent (storeEntry D g bytes) k = if k = g then Dirent.decode bytes else dirent D k := by
  have hbytes' : ((List.range direntSize).map fun i => bytes.getD i 0) = bytes := by
    refine ext_getElem (by rw [length_map, length_range, hbytes]) fun i _ hi => ?_
    rw [getElem_map, getElem_range, getD_eq_getElem _ _ hi]
  have hmap : ((List.range direntSize).map fun i =>
      (storeEntry D g bytes).getD (direntSize * k + i) 0) = (List.range direntSize).map fun i =>
        if k = g then bytes.getD i 0 else D.getD (direntSize * k + i) 0 :=
    map_congr_left fun i hi => getD_storeEntry hg hbytes (mem_range.1 hi)
  rw [dirent, hmap]
  split_ifs
  · rw [hbytes']
  · rfl

end

/-- An entry stored within the directory or at its end changes the names of its place only. -/
theorem names_storeEntry (h : Directory D) (hg : g ≤ D.length / direntSize)
    (hbytes : bytes.length = direntSize) (t : ℕ → BitVec 8) (k : ℕ) :
    Names (storeEntry D g bytes) t k ↔ if k = g then
      (Dirent.decode bytes).inum ≠ 0 ∧ namecmp t (Dirent.decode bytes).name = 0 else
        Names D t k := by
  obtain ⟨n, hn⟩ := h.aligned
  have hcount : D.length / direntSize = n := by rw [hn, Nat.mul_div_cancel_left _ (by decide)]
  rw [hcount] at hg
  have hle : direntSize * g ≤ D.length := by
    rw [hn]
    exact Nat.mul_le_mul_left _ hg
  have hlen : (storeEntry D g bytes).length / direntSize = max n (g + 1) := by
    rw [length_storeEntry hle hbytes, hn, ← Nat.mul_succ, Nat.mul_max_mul_left,
      Nat.mul_div_cancel_left _ (by decide)]
  rw [Names, Used, Names, Used, hlen, hcount, dirent_storeEntry hle hbytes]
  split_ifs with hk
  · exact and_congr_left fun _ => and_iff_right (by omega)
  · have hlt : k < max n (g + 1) ↔ k < n := by omega
    rw [hlt]

theorem Directory.store (h : Directory D) (hg : g ≤ D.length / direntSize)
    (hbytes : bytes.length = direntSize)
    (hnew : ∀ t, (Dirent.decode bytes).inum ≠ 0 → namecmp t (Dirent.decode bytes).name = 0 →
      ∀ k, ¬ Names D t k) : Directory (storeEntry D g bytes) := by
  have hle : direntSize * g ≤ D.length :=
    (Nat.mul_le_mul_left _ hg).trans (Nat.mul_div_le D.length direntSize)
  refine ⟨?_, fun t k l hk hl => ?_⟩
  · rw [length_storeEntry hle hbytes, ← Nat.mul_succ]
    rcases Nat.le_total D.length (direntSize * (g + 1)) with hmax | hmax
    · rw [Nat.max_eq_right hmax]
      exact Nat.dvd_mul_right _ _
    · rw [Nat.max_eq_left hmax]
      exact h.aligned
  · rw [names_storeEntry h hg hbytes] at hk hl
    split_ifs at hk hl with hkg hlg hlg
    · rw [hkg, hlg]
    · exact absurd hl (hnew t hk.1 hk.2 l)
    · exact absurd hk (hnew t hl.1 hl.2 k)
    · exact h.unique t k l hk hl

theorem find_congr {D' : List (BitVec 8)} (h : Directory D) (h' : Directory D')
    (hnames : ∀ k, Names D' t k ↔ Names D t k)
    (hdirent : ∀ k, Names D t k → dirent D' k = dirent D k) : find D' t = find D t := by
  by_cases hname : ∃ k, Names D t k
  · obtain ⟨k, hk⟩ := hname
    rw [h.find_eq_some hk, h'.find_eq_some ((hnames k).2 hk), hdirent k hk]
  · rw [find_eq_none (not_exists.1 hname), find_eq_none fun k hk => hname ⟨k, (hnames k).1 hk⟩]

def newEntry (inum : ℕ) (s : ℕ → BitVec 8) : List (BitVec 8) :=
  (List.range direntSize).map (Dirent.mk (BitVec.ofNat 16 inum) (strncpy s)).encode

theorem namecmp_newEntry (inum : ℕ) (s t : ℕ → BitVec 8) :
    namecmp t (Dirent.decode (newEntry inum s)).name = 0 ↔ SameName s t := by
  have hname : SameName (Dirent.decode (newEntry inum s)).name s :=
    (sameName_of_eq fun k hk => decode_name _ hk).trans (sameName_strncpy s)
  rw [namecmp_eq_zero_iff]
  exact ⟨fun h => (h.trans hname).symm, fun h => h.symm.trans hname.symm⟩

theorem Names.sameName (hs : Names D s k) (ht : Names D t k) : SameName s t :=
  (namecmp_eq_zero_iff.1 hs.2).trans (namecmp_eq_zero_iff.1 ht.2).symm

theorem Names.of_sameName (hs : Names D s k) (h : SameName s t) : Names D t k :=
  ⟨hs.1, namecmp_eq_zero_iff.2 (h.symm.trans (namecmp_eq_zero_iff.1 hs.2))⟩

theorem Directory.not_names (h : Directory D) (hnone : find D s = none) (k : ℕ) :
    ¬ Names D s k := by
  intro hk
  simp [h.find_eq_some hk] at hnone

theorem Directory.insert (h : Directory D) (hnone : find D s = none)
    (hg : g ≤ D.length / direntSize) (inum : ℕ) : Directory (storeEntry D g (newEntry inum s)) := by
  refine h.store hg (by rw [newEntry, length_map, length_range]) ?_
  intro t _ hname k hk
  exact h.not_names hnone k (hk.of_sameName ((namecmp_newEntry inum s t).1 hname).symm)

theorem Directory.find_insert (h : Directory D) (hnone : find D s = none)
    (hg : g ≤ D.length / direntSize) (hfree : ¬ Used D g) {inum : ℕ} (hpos : 1 ≤ inum)
    (hlt : inum < 2 ^ 16) (t : ℕ → BitVec 8) :
    find (storeEntry D g (newEntry inum s)) t =
      if SameName s t then some (BitVec.ofNat 16 inum, direntSize * g) else find D t := by
  have hbytes : (newEntry inum s).length = direntSize := by
    rw [newEntry, length_map, length_range]
  have hle : direntSize * g ≤ D.length :=
    (mul_le_mul_left _ hg).trans (mul_div_le D.length direntSize)
  have hinum : (Dirent.decode (newEntry inum s)).inum = BitVec.ofNat 16 inum := decode_inum _
  have hne : BitVec.ofNat 16 inum ≠ 0 := by
    rw [Ne, ← toNat_inj, toNat_ofNat, mod_eq_of_lt hlt]
    exact ne_of_gt hpos
  have hnames := names_storeEntry h hg hbytes t
  rw [hinum, namecmp_newEntry] at hnames
  split_ifs with hsame
  · have hk := (hnames g).2 (by rw [if_pos rfl]; exact ⟨hne, hsame⟩)
    rw [(h.insert hnone hg inum).find_eq_some hk, dirent_storeEntry hle hbytes, if_pos rfl, hinum]
  · refine find_congr h (h.insert hnone hg inum) (fun k => ?_) fun k hk => ?_
    · rw [hnames]
      split_ifs with hk
      · exact ⟨fun hnew => absurd hnew.2 hsame, fun hold => absurd (hk ▸ hold.1) hfree⟩
      · rfl
    · rw [dirent_storeEntry hle hbytes, if_neg]
      rintro rfl
      exact hfree hk.1

theorem Directory.erase (h : Directory D) (hk : Names D s k) :
    Directory (storeEntry D k ((List.range direntSize).map fun _ => 0)) ∧
      ∀ t, find (storeEntry D k ((List.range direntSize).map fun _ => 0)) t =
        if SameName s t then none else find D t := by
  have hbytes : ((List.range direntSize).map fun _ => (0 : BitVec 8)).length = direntSize := rfl
  have hinum : (Dirent.decode ((List.range direntSize).map fun _ => 0)).inum = 0 := rfl
  have hg := le_of_lt hk.1.1
  have hle : direntSize * k ≤ D.length :=
    (mul_le_mul_left _ hg).trans (mul_div_le D.length direntSize)
  have hdir := h.store hg hbytes fun _ hne => absurd hinum hne
  refine ⟨hdir, fun t => ?_⟩
  have hnames := names_storeEntry h hg hbytes t
  split_ifs with hsame
  · refine find_eq_none fun l hl => ?_
    rw [hnames] at hl
    split_ifs at hl with hlk
    · exact hl.1 rfl
    · exact hlk (h.unique t l k hl (hk.of_sameName hsame))
  · refine find_congr h hdir (fun l => ?_) fun l hl => ?_
    · rw [hnames]
      split_ifs with hlk
      · exact ⟨fun hnew => absurd rfl hnew.1, fun hold => absurd (hk.sameName (hlk ▸ hold)) hsame⟩
      · rfl
    · rw [dirent_storeEntry hle hbytes, if_neg]
      rintro rfl
      exact hsame (hk.sameName hl)

end Entries

end Xv6.FileSystem
