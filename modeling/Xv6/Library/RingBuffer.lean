import Mathlib.Algebra.Ring.Nat
import Mathlib.Tactic.Common

/-!
# Ring buffers with wrapping counters

A buffer of `size` cells with two counters of `w` bits that are never reduced to an
index: the cell of a counter is its value modulo `size`. The counters wrap, so the
size must divide `2 ^ w` for the cells to follow one another over the wrap, and must
be smaller than it for a full buffer not to look like an empty one.

`Represents r stored delivered` relates the buffer to the unbounded history of what
was ever stored and delivered. Putting a value into a buffer that is not full appends
to the one, and taking a value from a buffer that is not empty appends the value to
the other, which stays a beginning of the first.
-/

/-- A ring buffer: `nread` and `nwrite` count the values taken out and put in. -/
structure RingBuffer (w size : ℕ) (α : Type*) where
  nread : BitVec w
  nwrite : BitVec w
  data : Fin size → α

namespace RingBuffer

open Function List BitVec Nat

variable {w size : ℕ} {α : Type*} {r : RingBuffer w size α}

def Full (r : RingBuffer w size α) : Prop := r.nwrite = r.nread + BitVec.ofNat w size

instance decidableFull : Decidable r.Full := inferInstanceAs (Decidable (_ = _))

def Empty (r : RingBuffer w size α) : Prop := r.nread = r.nwrite

instance decidableEmpty : Decidable r.Empty := inferInstanceAs (Decidable (_ = _))

variable [NeZero size]

def put (r : RingBuffer w size α) (a : α) : RingBuffer w size α :=
  { r with
    data := update r.data (Fin.ofNat size r.nwrite.toNat) a
    nwrite := r.nwrite + 1 }

def front (r : RingBuffer w size α) : α := r.data (Fin.ofNat size r.nread.toNat)

omit [NeZero size] in
def drop (r : RingBuffer w size α) : RingBuffer w size α := { r with nread := r.nread + 1 }

/-- The buffer is what is left of a history of stored and delivered values. -/
structure Represents (r : RingBuffer w size α) (stored delivered : List α) : Prop where
  nwrite : r.nwrite = BitVec.ofNat w stored.length
  nread : r.nread = BitVec.ofNat w delivered.length
  beginning : delivered <+: stored
  bound : stored.length ≤ delivered.length + size
  inside : ∀ k a, delivered.length ≤ k → stored[k]? = some a → r.data (Fin.ofNat size k) = a

variable {stored delivered : List α} {a : α}

theorem represents_nil (data : Fin size → α) :
    (⟨0, 0, data⟩ : RingBuffer w size α).Represents [] [] :=
  ⟨rfl, rfl, prefix_rfl, zero_le _, fun k a _ hk => by simp at hk⟩

theorem Represents.length_le (h : r.Represents stored delivered) :
    delivered.length ≤ stored.length :=
  h.beginning.length_le

section Counters

variable (hw : size < 2 ^ w)

theorem ofNat_eq_iff {k m : ℕ} (hk : k < 2 ^ w) (hm : m < 2 ^ w) :
    BitVec.ofNat w k = BitVec.ofNat w m ↔ k = m := by
  constructor
  · intro heq
    have htoNat := congrArg BitVec.toNat heq
    rwa [toNat_ofNat, toNat_ofNat, mod_eq_of_lt hk, mod_eq_of_lt hm]
      at htoNat
  · exact congrArg (BitVec.ofNat w)

theorem Represents.nwrite_eq (h : r.Represents stored delivered) :
    r.nwrite = r.nread + BitVec.ofNat w (stored.length - delivered.length) := by
  rw [h.nwrite, h.nread, ← ofNat_add, Nat.add_sub_cancel' h.length_le]

include hw

variable (h : r.Represents stored delivered)
include h

theorem Represents.sub_lt : stored.length - delivered.length < 2 ^ w :=
  lt_of_le_of_lt (Nat.sub_le_iff_le_add'.2 h.bound) hw

theorem Represents.toNat_sub : (r.nwrite - r.nread).toNat = stored.length - delivered.length := by
  rw [h.nwrite_eq, BitVec.add_comm, BitVec.add_sub_cancel, BitVec.toNat_ofNat,
    mod_eq_of_lt (h.sub_lt hw)]

theorem Represents.full_iff : r.Full ↔ stored.length = delivered.length + size := by
  rw [Full, h.nwrite_eq, BitVec.add_right_inj, ofNat_eq_iff (h.sub_lt hw) hw]
  have := h.length_le
  omega

theorem Represents.empty_iff : r.Empty ↔ delivered = stored := by
  have hzero : r.Empty ↔ stored.length - delivered.length = 0 := by
    rw [← ofNat_eq_iff (h.sub_lt hw) (Nat.two_pow_pos w), Empty, h.nwrite_eq]
    exact BitVec.self_eq_add_right
  rw [hzero, Nat.sub_eq_zero_iff_le]
  constructor
  · intro hle
    exact h.beginning.eq_of_length_le hle
  · intro heq
    rw [heq]

end Counters

theorem cell_ofNat (hdvd : size ∣ 2 ^ w) (n : ℕ) :
    Fin.ofNat size (BitVec.ofNat w n).toNat = Fin.ofNat size n := by
  ext
  rw [Fin.val_ofNat, Fin.val_ofNat, toNat_ofNat, mod_mod_of_dvd n hdvd]

theorem cell_ne {k n : ℕ} (hk : k < n) (hn : n < k + size) :
    Fin.ofNat size k ≠ Fin.ofNat size n := by
  intro heq
  have hmod : k % size = n % size := congrArg Fin.val heq
  have hdvd : size ∣ n - k :=
    Nat.dvd_of_mod_eq_zero (Nat.sub_mod_eq_zero_of_mod_eq hmod.symm)
  have hle := Nat.le_of_dvd (Nat.sub_pos_of_lt hk) hdvd
  omega

theorem Represents.put (h : r.Represents stored delivered) (hw : size < 2 ^ w) (hdvd : size ∣ 2 ^ w)
    (hfull : ¬ r.Full) (a : α) : (r.put a).Represents (stored ++ [a]) delivered := by
  have hlt : stored.length < delivered.length + size :=
    lt_of_le_of_ne h.bound fun heq => hfull ((h.full_iff hw).2 heq)
  refine ⟨?_, h.nread, h.beginning.trans (prefix_append stored [a]), ?_, ?_⟩
  · rw [length_append, length_singleton, ofNat_add, ← h.nwrite]
    rfl
  · rw [length_append, length_singleton]
    exact hlt
  · intro k b hk hb
    have hcell : (r.put a).data = update r.data (Fin.ofNat size stored.length) a := by
      rw [RingBuffer.put, h.nwrite, cell_ofNat hdvd]
    rw [hcell]
    rcases Nat.lt_trichotomy k stored.length with hlt' | rfl | hgt
    · rw [List.getElem?_append_left hlt'] at hb
      have hne := cell_ne hlt' (lt_of_lt_of_le hlt (Nat.add_le_add_right hk size))
      rw [update_of_ne hne]
      exact h.inside k b hk hb
    · simpa using hb
    · rw [List.getElem?_append_right (Nat.le_of_lt hgt), List.getElem?_eq_none] at hb
      · cases hb
      · rw [length_singleton]
        omega

theorem Represents.front_eq {rest : List α} (h : r.Represents (delivered ++ a :: rest) delivered)
    (hdvd : size ∣ 2 ^ w) : r.front = a := by
  rw [front, h.nread, cell_ofNat hdvd]
  refine h.inside _ a le_rfl ?_
  rw [List.getElem?_append_right le_rfl, Nat.sub_self]
  rfl

theorem Represents.drop (h : r.Represents stored delivered) (hw : size < 2 ^ w)
    (hdvd : size ∣ 2 ^ w) (hempty : ¬ r.Empty) :
    r.drop.Represents stored (delivered ++ [r.front]) := by
  obtain ⟨rest, hrest⟩ := h.beginning
  cases rest with
  | nil =>
    rw [append_nil] at hrest
    exact absurd ((h.empty_iff hw).2 hrest) hempty
  | cons a rest =>
    have hfront : r.front = a := by
      rw [← hrest] at h
      exact h.front_eq hdvd
    refine ⟨h.nwrite, ?_, ?_, ?_, ?_⟩
    · rw [length_append, length_singleton, ofNat_add, ← h.nread]
      rfl
    · rw [hfront, ← hrest]
      exact ⟨rest, by simp⟩
    · have hbound := h.bound
      rw [length_append, length_singleton]
      omega
    · intro k b hk
      rw [length_append, length_singleton] at hk
      exact h.inside k b (le_of_succ_le hk)

theorem Represents.pop (h : r.Represents (stored ++ [a]) delivered)
    (hle : delivered.length ≤ stored.length) :
    { r with nwrite := r.nwrite - 1 }.Represents stored delivered := by
  have hin := prefix_append stored [a]
  refine ⟨?_, h.nread, prefix_of_prefix_length_le h.beginning hin hle, ?_, ?_⟩
  · rw [h.nwrite, length_append, length_singleton, ofNat_add]
    exact add_sub_cancel _ _
  · refine le_trans hin.length_le h.bound
  · intro k b hk hb
    refine h.inside k b hk ?_
    obtain ⟨hlt, -⟩ := List.getElem?_eq_some_iff.1 hb
    rw [List.getElem?_append_left hlt, hb]

end RingBuffer
