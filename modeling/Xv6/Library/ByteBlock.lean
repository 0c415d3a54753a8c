import Mathlib.Tactic.Common

/-!
# Blocks of bytes

A `ByteBlock n` is a block of `n` bytes. `byteAt` reads one byte, and `store`
overwrites a range of bytes. A 16-bit or 32-bit field at a byte offset is read
and written in little-endian order. The lemmas say that a field reads back the
value last stored in it and that a store elsewhere does not disturb it, so a
record laid out in a block is reasoned about through its field offsets only.
-/

abbrev ByteBlock (n : ℕ) := Fin n → BitVec 8

namespace ByteBlock

open BitVec

variable {n : ℕ}

def byteAt (b : ByteBlock n) (k : ℕ) : BitVec 8 :=
  if h : k < n then b ⟨k, h⟩ else 0

def store (b : ByteBlock n) (off len : ℕ) (f : ℕ → BitVec 8) : ByteBlock n :=
  fun j => if off ≤ j.val ∧ j.val < off + len then f (j.val - off) else b j

theorem byteAt_store_inside (b : ByteBlock n) {off len k : ℕ} (f : ℕ → BitVec 8) (hk : k < len)
    (hn : off + k < n) : byteAt (store b off len f) (off + k) = f k := by
  have hin : off ≤ off + k ∧ off + k < off + len := by omega
  simp [byteAt, store, hn, hin]

theorem byteAt_store_outside (b : ByteBlock n) {off len k : ℕ} (f : ℕ → BitVec 8)
    (hk : k < off ∨ off + len ≤ k) : byteAt (store b off len f) k = byteAt b k := by
  by_cases hn : k < n
  · have hout : ¬ (off ≤ k ∧ k < off + len) := by omega
    simp [byteAt, store, hn, hout]
  · simp [byteAt, hn]

def u16At (b : ByteBlock n) (off : ℕ) : BitVec 16 :=
  (byteAt b off).setWidth 16 ||| (byteAt b (off + 1)).setWidth 16 <<< 8

def u32At (b : ByteBlock n) (off : ℕ) : BitVec 32 :=
  (byteAt b off).setWidth 32 ||| (byteAt b (off + 1)).setWidth 32 <<< 8 |||
    (byteAt b (off + 2)).setWidth 32 <<< 16 ||| (byteAt b (off + 3)).setWidth 32 <<< 24

def setU16 (b : ByteBlock n) (off : ℕ) (v : BitVec 16) : ByteBlock n :=
  store b off 2 fun i => v.extractLsb' (8 * i) 8

def setU32 (b : ByteBlock n) (off : ℕ) (v : BitVec 32) : ByteBlock n :=
  store b off 4 fun i => v.extractLsb' (8 * i) 8

section

variable (b : ByteBlock n)
include b

theorem byteAt_store_start {off len : ℕ} (f : ℕ → BitVec 8) (hlen : 0 < len) (hn : off < n) :
    byteAt (store b off len f) off = f 0 := by
  have hn' : off + 0 < n := hn
  exact byteAt_store_inside b f hlen hn'

@[simp] theorem u16At_setU16 (off : ℕ) (v : BitVec 16) (h : off + 2 ≤ n) :
    u16At (setU16 b off v) off = v := by
  simp only [u16At, setU16]
  rw [byteAt_store_start b _ (by omega) (by omega), byteAt_store_inside b _ (by omega) (by omega)]
  apply eq_of_getLsbD_eq
  intro i hi
  simp only [getLsbD_or, getLsbD_shiftLeft, getLsbD_setWidth, getLsbD_extractLsb']
  grind

@[simp] theorem u32At_setU32 (off : ℕ) (v : BitVec 32) (h : off + 4 ≤ n) :
    u32At (setU32 b off v) off = v := by
  simp only [u32At, setU32]
  rw [byteAt_store_start b _ (by omega) (by omega), byteAt_store_inside b _ (by omega) (by omega),
    byteAt_store_inside b _ (by omega) (by omega),
    byteAt_store_inside b _ (by omega) (by omega)]
  apply eq_of_getLsbD_eq
  intro i hi
  simp only [getLsbD_or, getLsbD_shiftLeft, getLsbD_setWidth, getLsbD_extractLsb']
  grind

theorem u16At_store_outside {off len k : ℕ} (f : ℕ → BitVec 8) (hk : k + 2 ≤ off ∨ off + len ≤ k) :
    u16At (store b off len f) k = u16At b k := by
  simp only [u16At]
  rw [byteAt_store_outside b f (by omega), byteAt_store_outside b f (by omega)]

theorem u32At_store_outside {off len k : ℕ} (f : ℕ → BitVec 8) (hk : k + 4 ≤ off ∨ off + len ≤ k) :
    u32At (store b off len f) k = u32At b k := by
  simp only [u32At]
  rw [byteAt_store_outside b f (by omega), byteAt_store_outside b f (by omega),
    byteAt_store_outside b f (by omega), byteAt_store_outside b f (by omega)]

theorem u32At_setU32_of_ne {i j : ℕ} (v : BitVec 32) (h : i ≠ j) :
    u32At (setU32 b (4 * i) v) (4 * j) = u32At b (4 * j) :=
  u32At_store_outside b _ (by omega)

end

def setU32s (b : ByteBlock n) (off : ℕ) {m : ℕ} (w : Fin m → BitVec 32) : ByteBlock n :=
  store b off (4 * m) fun i =>
    if h : i / 4 < m then (w ⟨i / 4, h⟩).extractLsb' (8 * (i % 4)) 8 else 0

theorem u32At_setU32s (b : ByteBlock n) {off m : ℕ} (w : Fin m → BitVec 32)
    (h : off + 4 * m ≤ n) (j : Fin m) : u32At (setU32s b off w) (off + 4 * j) = w j := by
  have hbyte : ∀ i < 4, byteAt (setU32s b off w) (off + (4 * j + i)) =
      (w j).extractLsb' (8 * i) 8 := by
    intro i hi
    have hdiv : (4 * j.val + i) / 4 = j := by omega
    have hmod : (4 * j.val + i) % 4 = i := by omega
    rw [setU32s, byteAt_store_inside b _ (by omega) (by omega)]
    simp only [hdiv, hmod, j.isLt, dite_true, Fin.eta]
  have h0 := hbyte 0 (by omega)
  have h1 := hbyte 1 (by omega)
  have h2 := hbyte 2 (by omega)
  have h3 := hbyte 3 (by omega)
  simp only [← Nat.add_assoc, Nat.add_zero] at h0 h1 h2 h3
  simp only [u32At, h0, h1, h2, h3]
  apply eq_of_getLsbD_eq
  intro i hi
  simp only [getLsbD_or, getLsbD_shiftLeft, getLsbD_setWidth, getLsbD_extractLsb']
  grind

theorem u16At_store_zero (b : ByteBlock n) {off len k : ℕ} (h : off ≤ k) (hk : k + 2 ≤ off + len)
    (hn : k + 2 ≤ n) : u16At (store b off len fun _ => 0) k = 0 := by
  obtain ⟨i, rfl⟩ := Nat.exists_eq_add_of_le h
  simp only [u16At, Nat.add_assoc]
  rw [byteAt_store_inside b _ (by omega) (by omega), byteAt_store_inside b _ (by omega) (by omega)]
  rfl

theorem u32At_store_zero (b : ByteBlock n) {off len k : ℕ} (h : off ≤ k) (hk : k + 4 ≤ off + len)
    (hn : k + 4 ≤ n) : u32At (store b off len fun _ => 0) k = 0 := by
  obtain ⟨i, rfl⟩ := Nat.exists_eq_add_of_le h
  simp only [u32At, Nat.add_assoc]
  rw [byteAt_store_inside b _ (by omega) (by omega), byteAt_store_inside b _ (by omega) (by omega),
    byteAt_store_inside b _ (by omega) (by omega),
    byteAt_store_inside b _ (by omega) (by omega)]
  rfl

def bitAt (b : ByteBlock n) (k : ℕ) : Bool :=
  byteAt b (k / 8) &&& 1#8 <<< (k % 8) != 0

def setBit (b : ByteBlock n) (k : ℕ) : ByteBlock n :=
  store b (k / 8) 1 fun _ => byteAt b (k / 8) ||| 1#8 <<< (k % 8)

def clearBit (b : ByteBlock n) (k : ℕ) : ByteBlock n :=
  store b (k / 8) 1 fun _ => byteAt b (k / 8) &&& ~~~(1#8 <<< (k % 8))

theorem and_one_shiftLeft_ne_zero (x : BitVec 8) {i : ℕ} (hi : i < 8) :
    (x &&& 1#8 <<< i != 0) = x.getLsbD i := by
  have hbit : ∀ j, (x &&& 1#8 <<< i).getLsbD j = (x.getLsbD j && decide (j = i)) := by
    intro j
    simp only [getLsbD_and, getLsbD_shiftLeft, getLsbD_one]
    grind
  cases hx : x.getLsbD i with
  | false =>
    have hzero : x &&& 1#8 <<< i = 0 := by
      apply eq_of_getLsbD_eq
      intro j _
      rw [hbit]
      by_cases hji : j = i
      · simp [hji, hx]
      · simp [hji]
    simp [hzero]
  | true =>
    have hne : x &&& 1#8 <<< i ≠ 0 := by
      intro hzero
      have hi' := hbit i
      rw [hzero, hx] at hi'
      simp at hi'
    simpa using hne

theorem bitAt_eq_getLsbD (b : ByteBlock n) (k : ℕ) :
    bitAt b k = (byteAt b (k / 8)).getLsbD (k % 8) :=
  and_one_shiftLeft_ne_zero _ (Nat.mod_lt k (by omega))

theorem bitAt_store_byte (b : ByteBlock n) {k : ℕ} (hk : k < 8 * n) (x : BitVec 8) (j : ℕ) :
    bitAt (store b (k / 8) 1 fun _ => x) j =
      if j / 8 = k / 8 then x.getLsbD (j % 8) else bitAt b j := by
  rw [bitAt_eq_getLsbD, bitAt_eq_getLsbD]
  by_cases hjk : j / 8 = k / 8
  · rw [if_pos hjk, hjk, byteAt_store_start b _ (by omega) (by omega)]
  · rw [if_neg hjk, byteAt_store_outside b _ (by omega)]

theorem bitAt_setBit (b : ByteBlock n) {k : ℕ} (hk : k < 8 * n) (j : ℕ) :
    bitAt (setBit b k) j = (decide (j = k) || bitAt b j) := by
  rw [setBit, bitAt_store_byte b hk, bitAt_eq_getLsbD b j]
  by_cases hjk : j / 8 = k / 8
  · have hmod : j % 8 = k % 8 ↔ j = k := by omega
    rw [if_pos hjk, hjk]
    simp only [getLsbD_or, getLsbD_shiftLeft, getLsbD_one]
    grind
  · have hne : j ≠ k := by
      rintro rfl
      exact hjk rfl
    rw [if_neg hjk]
    simp [hne]

theorem bitAt_clearBit (b : ByteBlock n) {k : ℕ} (hk : k < 8 * n) (j : ℕ) :
    bitAt (clearBit b k) j = (!decide (j = k) && bitAt b j) := by
  rw [clearBit, bitAt_store_byte b hk, bitAt_eq_getLsbD b j]
  by_cases hjk : j / 8 = k / 8
  · have hmod : j % 8 = k % 8 ↔ j = k := by omega
    rw [if_pos hjk, hjk]
    simp only [getLsbD_and, getLsbD_not, getLsbD_shiftLeft, getLsbD_one]
    grind
  · have hne : j ≠ k := by
      rintro rfl
      exact hjk rfl
    rw [if_neg hjk]
    simp [hne]

end ByteBlock
