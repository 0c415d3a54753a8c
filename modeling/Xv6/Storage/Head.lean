import Xv6.Storage.Log

/-!
# Writing and reading the log header

A header of at most `logSize` blocks written into the header block reads back
as the same count and the same home block numbers, and a header whose count is
zero reads back as no home at all, whatever else the block held.
-/

namespace Xv6

open ByteBlock RedoLog List

@[simp] theorem wordAt_setWord_self (d : Block) {i : ℕ} (w : BitVec 32) (hi : i < 128) :
    wordAt (setWord d i w) i = w := by
  have hfit : 4 * i + 4 ≤ bSize := by
    simp only [bSize]
    omega
  exact u32At_setU32 d (4 * i) w hfit

theorem wordAt_setWord_of_ne (d : Block) {i j : ℕ} (w : BitVec 32) (h : i ≠ j) :
    wordAt (setWord d i w) j = wordAt d j :=
  u32At_setU32_of_ne d w h

@[simp] theorem wordAt_zero (j : ℕ) : wordAt (fun _ => 0) j = 0 := by
  simp [wordAt, u32At, byteAt]

theorem wordAt_foldl_setWord_of_notMem (f : ℕ → BitVec 32) (m j : ℕ)
    (hj : j = 0 ∨ m < j) (d : Block) :
    wordAt ((List.range m).foldl (fun d i => setWord d (i + 1) (f i)) d) j = wordAt d j := by
  induction m with
  | zero => rfl
  | succ m ih =>
    rw [range_succ, foldl_append]
    simp only [foldl_cons, foldl_nil]
    rw [wordAt_setWord_of_ne _ _ (by omega), ih (by omega)]

theorem wordAt_foldl_setWord (f : ℕ → BitVec 32) (m : ℕ) (hm : m < 128) (d : Block)
    {j : ℕ} (hj : j < m) :
    wordAt ((List.range m).foldl (fun d i => setWord d (i + 1) (f i)) d) (j + 1) = f j := by
  induction m with
  | zero => omega
  | succ m ih =>
    rw [range_succ, foldl_append]
    simp only [foldl_cons, foldl_nil]
    by_cases hjm : j = m
    · rw [hjm, wordAt_setWord_self _ _ (by omega)]
    · rw [wordAt_setWord_of_ne _ _ (by omega), ih (by omega) (by omega)]

def headCount (d : Block) : ℕ := (wordAt d 0).toInt.toNat

def headHomes (d : Block) : List ℕ :=
  (List.range (headCount d)).map fun i => (wordAt d (i + 1)).toNat

/-- The home blocks of a header in memory, in log order. -/
def LogHeader.homes (h : LogHeader) : List ℕ :=
  (List.range h.count).map fun i => (h.blockAt i).toNat

@[simp] theorem LogHeader.length_homes (h : LogHeader) : h.homes.length = h.count := by
  simp [LogHeader.homes]

@[simp] theorem LogHeader.getElem_homes (h : LogHeader) (i : ℕ) (hi : i < h.homes.length) :
    h.homes[i] = (h.blockAt i).toNat := by
  simp [LogHeader.homes]

theorem wordAt_encodeHead_zero (h : LogHeader) (d : Block) : wordAt (encodeHead h d) 0 = h.n := by
  rw [encodeHead, wordAt_foldl_setWord_of_notMem _ _ _ (.inl rfl),
    wordAt_setWord_self _ _ (by omega)]

theorem headHomes_encodeHead (h : LogHeader) (d : Block) (hcount : h.count ≤ logSize) :
    headHomes (encodeHead h d) = h.homes := by
  have hn : headCount (encodeHead h d) = h.count := by
    rw [headCount, wordAt_encodeHead_zero, LogHeader.count]
  rw [headHomes, hn, LogHeader.homes]
  apply map_congr_left
  intro i hi
  have hlt : h.count < 128 := Nat.lt_of_le_of_lt hcount (by decide)
  rw [encodeHead, wordAt_foldl_setWord _ _ hlt _ (mem_range.1 hi)]

theorem headHomes_encodeHead_clear (h : LogHeader) (d : Block) :
    headHomes (encodeHead { h with n := 0 } d) = [] :=
  headHomes_encodeHead _ d (Nat.zero_le _)

theorem encodeHead_clear (h : LogHeader) (d : Block) :
    encodeHead { h with n := 0 } d = setWord d 0 0 := rfl

theorem count_decodeHead (d : Block) (old : LogHeader) :
    (decodeHead d old).count = headCount d := rfl

theorem homes_decodeHead (d : Block) (old : LogHeader) (h : headCount d ≤ logSize) :
    (decodeHead d old).homes = headHomes d := by
  rw [LogHeader.homes, headHomes, count_decodeHead]
  apply map_congr_left
  intro i hi
  have hi' := mem_range.1 hi
  have hlt : i < logSize := by omega
  rw [headCount] at hi'
  simp only [LogHeader.blockAt, hlt, dite_true, decodeHead, if_pos hi']

/-- The log as a redo log: the header block, one slot for each block after it,
and the blocks that belong to the log. -/
def Log.layout (start size : ℕ) (hsize : 0 < size) : Layout ℕ Block where
  header := start
  slot i := start + i + 1
  region := {b | start ≤ b ∧ b < start + size}
  homes := headHomes
  clear d := setWord d 0 0
  header_mem := ⟨Nat.le_refl _, by omega⟩
  homes_clear d := headHomes_encodeHead_clear ⟨0, fun _ => 0⟩ d

end Xv6
