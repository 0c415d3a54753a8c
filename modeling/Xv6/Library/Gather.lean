import Mathlib.Data.List.Range

/-!
# Gathering the kept entries of an array

A loop that runs over an array and appends the entries it keeps to another one.
`into keep src dst k n` is the target after `n` rounds when the first entry goes to the
index `k`. The entries of an array whose kept ones come first are `Packed`; gathering them
copies them one for one.
-/

namespace Gather

open List

variable {α : Type*} {keep : α → Bool} {src dst : ℕ → α} {i j k m n : ℕ}

def kept (keep : α → Bool) (src : ℕ → α) (n : ℕ) : ℕ :=
  (List.range n).countP fun i => keep (src i)

@[simp] theorem kept_zero : kept keep src 0 = 0 := rfl

theorem kept_succ_of_keep (h : keep (src n) = true) :
    kept keep src (n + 1) = kept keep src n + 1 := by
  simp [kept, range_succ, h]

theorem kept_succ_of_not (h : keep (src n) = false) : kept keep src (n + 1) = kept keep src n := by
  simp [kept, range_succ, h]

theorem kept_le (n : ℕ) : kept keep src n ≤ n := by
  have h := countP_le_length (l := List.range n) (p := fun i => keep (src i))
  rwa [length_range] at h

theorem kept_mono (h : m ≤ n) : kept keep src m ≤ kept keep src n :=
  (range_sublist.2 h).countP_le

theorem kept_le_kept (h : ∀ i < n, keep (src i) = true → keep (dst i) = true) :
    kept keep src n ≤ kept keep dst n :=
  countP_mono_left fun i hi => h i (mem_range.1 hi)

def into (keep : α → Bool) (src dst : ℕ → α) (k : ℕ) : ℕ → ℕ → α
  | 0 => dst
  | n + 1 =>
    if keep (src n) then
      Function.update (into keep src dst k n) (k + kept keep src n) (src n)
    else
      into keep src dst k n

theorem into_succ_of_keep (h : keep (src n) = true) :
    into keep src dst k (n + 1) =
      Function.update (into keep src dst k n) (k + kept keep src n) (src n) := by
  rw [into, if_pos h]

theorem into_succ_of_not (h : keep (src n) = false) :
    into keep src dst k (n + 1) = into keep src dst k n := by
  rw [into, if_neg (by simp [h])]

def Packed (keep : α → Bool) (src : ℕ → α) (n : ℕ) : Prop :=
  ∀ i < n, keep (src i) = true → ∀ j < i, keep (src j) = true

variable (h : Packed keep src n)
include h

theorem Packed.mono (hm : m ≤ n) : Packed keep src m :=
  fun i hi => h i (hi.trans_le hm)

theorem Packed.kept_eq (hi : i < n) (hk : keep (src i) = true) : kept keep src i = i := by
  have hall : ∀ j ∈ List.range i, keep (src j) = true := fun j hj =>
    h i hi hk j (mem_range.1 hj)
  rw [kept, countP_eq_length.2 hall, length_range]

theorem Packed.keep_iff (hi : i < n) : keep (src i) = true ↔ i < kept keep src n := by
  constructor
  · intro hk
    calc i < kept keep src (i + 1) := by
          rw [kept_succ_of_keep hk, h.kept_eq hi hk]
          exact Nat.lt_succ_self i
      _ ≤ kept keep src n := kept_mono hi
  · intro hlt
    by_contra hk
    -- nothing is kept from the first entry on that is not
    have hstop : ∀ j, i ≤ j → j ≤ n → kept keep src j = kept keep src i := by
      intro j hij
      induction j, hij using Nat.le_induction with
      | base => exact fun _ => rfl
      | succ j hij ih =>
        intro hj
        have hkeep : keep (src j) = false := by
          by_contra hkj
          rcases Nat.eq_or_lt_of_le hij with rfl | hlt'
          · exact hk (by simpa using hkj)
          · exact hk (h j hj (by simpa using hkj) i hlt')
        rw [kept_succ_of_not hkeep]
        exact ih (by omega)
    have hle : kept keep src i ≤ i := kept_le i
    rw [hstop n hi.le (Nat.le_refl n)] at hlt
    omega

theorem Packed.into_eq (dst : ℕ → α) (j : ℕ) :
    into keep src dst 0 n j = if j < kept keep src n then src j else dst j := by
  induction n with
  | zero => simp [into]
  | succ n ih =>
    have ih := ih (h.mono (Nat.le_succ n))
    cases hk : keep (src n) with
    | false => rw [into_succ_of_not hk, kept_succ_of_not hk, ih]
    | true =>
      have hn := h.kept_eq (Nat.lt_succ_self n) hk
      rw [into_succ_of_keep hk, kept_succ_of_keep hk, Nat.zero_add, hn]
      by_cases hj : j = n
      · subst hj
        simp
      · rw [Function.update_of_ne hj, ih, hn]
        exact if_congr (by omega) rfl rfl

end Gather
