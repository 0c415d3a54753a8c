import Mathlib.Data.Fintype.Card
import Xv6.BufferCache.Model

/-!
# The list and the contents of the buffers

On links that form a ring of all buffers, `bget` chooses as the cache without links
does, in `Xv6.BCache.order` and its reverse, and the last `brelse` of a buffer moves
it to the front.

`Coherent` says where the contents of a block are: in its buffer if it has a valid
one that nobody is changing, and on the disk if it has no dirty one. A buffer that
is not dirty can therefore be recycled, and a buffer that is not valid filled.
-/

namespace Xv6.BufferCache

open LinkedRing Function State

variable {P : Type*} {s t : State P} {i j : Fin nBuf} {dev blockno : ℕ}
  {order : List (Fin nBuf)} {c : Buf P}

/-! ### The list -/

def State.Listed (s : State P) : Prop :=
  ∃ order, s.links.Linked order ∧ ∀ i, i ∈ order

/-- On a list of buffers without repetitions `bget` does what the cache without
links does: it looks for the block in the order of the list, and for a buffer to
recycle in the reverse order. -/
theorem bget_eq (h : s.links.Linked order) (dev blockno : ℕ) :
    s.bget dev blockno =
      match order.find? ((s.bcache order).holds dev blockno) with
      | some i => .ok (i, s.setBuf i fun b => { b with refcnt := b.refcnt + 1 })
      | none =>
        match order.reverse.find? (s.bcache order).unused with
        | some i =>
          .ok (i, s.setBuf i fun b =>
            { b with dev := dev, blockno := blockno, valid := false, dirty := false,
                     refcnt := 1 })
        | none => .error .noBuffers := by
  have hlength : order.length < nBuf + 1 := by
    have hcard := h.nodup.length_le_card
    exact Nat.lt_succ_of_le hcard
  have hnext : Links.walk s.links.next (s.holds dev blockno) (nBuf + 1) (s.links.next none) =
      some (order.find? ((s.bcache order).holds dev blockno)) := h.walk_next _ hlength
  have hprev : Links.walk s.links.prev s.unused (nBuf + 1) (s.links.prev none) =
      some (order.reverse.find? (s.bcache order).unused) := h.walk_prev _ hlength
  rw [State.bget, hnext, hprev]
  cases order.find? ((s.bcache order).holds dev blockno) with
  | some i => rfl
  | none =>
    cases order.reverse.find? (s.bcache order).unused with
    | some i => rfl
    | none => rfl

theorem bget_ne_endless (h : s.Listed) (dev blockno : ℕ) :
    s.bget dev blockno ≠ .error .endless := by
  obtain ⟨order, horder, -⟩ := h
  rw [bget_eq horder]
  split
  · simp
  · split
    · simp
    · simp

/-- What `bget` chooses: the buffer that holds the block, or if there is none a
buffer without references that is not dirty. -/
theorem bget_cases (h : s.Listed) (hget : s.bget dev blockno = .ok (i, t)) :
    (s.holds dev blockno i = true ∧ t = s.setBuf i fun b => { b with refcnt := b.refcnt + 1 }) ∨
      ((∀ j, s.holds dev blockno j = false) ∧ s.unused i = true ∧ t = s.setBuf i fun b =>
          { b with dev := dev, blockno := blockno, valid := false, dirty := false,
                   refcnt := 1 }) := by
  obtain ⟨order, horder, hall⟩ := h
  rw [bget_eq horder] at hget
  split at hget
  · rename_i k hfind
    obtain ⟨rfl, rfl⟩ : k = i ∧ _ = t := by simpa using hget
    exact .inl ⟨List.find?_some hfind, rfl⟩
  · rename_i hnone
    split at hget
    · rename_i k hfind
      obtain ⟨rfl, rfl⟩ : k = i ∧ _ = t := by simpa using hget
      refine .inr ⟨fun j => ?_, List.find?_some hfind, rfl⟩
      exact Bool.eq_false_iff.2 (List.find?_eq_none.1 hnone j (hall j))
    · simp at hget

theorem unref_listed (h : s.Listed) (i : Fin nBuf) : (s.unref i).Listed := by
  obtain ⟨order, horder, hall⟩ := h
  rw [unref]
  split
  · refine ⟨i :: order.erase i, horder.toFront (hall i), fun j => ?_⟩
    by_cases hj : j = i
    · simp [hj]
    · exact List.mem_cons_of_mem i ((List.mem_erase_of_ne hj).2 (hall j))
  · exact ⟨order, horder, hall⟩

/-! ### The contents -/

/-- The buffers and the disk together hold the contents of every block. -/
structure Coherent (s : State P) : Prop where
  unique : ∀ i j, (s.buf i).dev ≠ 0 → (s.buf i).dev = (s.buf j).dev →
    (s.buf i).blockno = (s.buf j).blockno → i = j
  valid_dev : ∀ i, (s.buf i).valid = true → (s.buf i).dev = rootDev
  dirty_valid : ∀ i, (s.buf i).dirty = true → (s.buf i).valid = true
  cached : ∀ i, (s.buf i).valid = true → s.touched i = false →
    (s.buf i).data = s.contents (s.buf i).dev (s.buf i).blockno
  home : ∀ b, (∀ i, (s.buf i).dev = rootDev → (s.buf i).blockno = b →
    (s.buf i).dirty = false) → s.disk b = s.contents rootDev b

structure SameContents (b c : Buf P) : Prop where
  dev : b.dev = c.dev
  blockno : b.blockno = c.blockno
  valid : b.valid = c.valid
  dirty : b.dirty = c.dirty
  data : b.data = c.data

theorem SameContents.refl (b : Buf P) : SameContents b b := ⟨rfl, rfl, rfl, rfl, rfl⟩

variable (h : Coherent s)
include h

theorem Coherent.congr (hbuf : ∀ i, SameContents (t.buf i) (s.buf i)) (hdisk : t.disk = s.disk)
    (hcontents : t.contents = s.contents) (htouched : t.touched = s.touched) : Coherent t := by
  refine ⟨fun i j => ?_, fun i => ?_, fun i => ?_, fun i => ?_, fun b hb => ?_⟩
  · rw [(hbuf i).dev, (hbuf j).dev, (hbuf i).blockno, (hbuf j).blockno]
    exact h.unique i j
  · rw [(hbuf i).valid, (hbuf i).dev]
    exact h.valid_dev i
  · rw [(hbuf i).dirty, (hbuf i).valid]
    exact h.dirty_valid i
  · rw [(hbuf i).valid, (hbuf i).data, (hbuf i).dev, (hbuf i).blockno, htouched, hcontents]
    exact h.cached i
  · rw [hdisk, hcontents]
    refine h.home b fun i hdev hblockno => ?_
    rw [← (hbuf i).dirty]
    exact hb i ((hbuf i).dev.trans hdev) ((hbuf i).blockno.trans hblockno)

theorem Coherent.congr_update (hbuf : t.buf = update s.buf i c) (hc : SameContents c (s.buf i))
    (hdisk : t.disk = s.disk) (hcontents : t.contents = s.contents)
    (htouched : t.touched = s.touched) : Coherent t := by
  refine h.congr (fun j => ?_) hdisk hcontents htouched
  by_cases hj : j = i
  · rw [hj, hbuf, update_self]
    exact hc
  · rw [hbuf, update_of_ne hj]
    exact .refl _

/-- A buffer that is not dirty may be given to a block that is not cached. -/
theorem Coherent.recycle (hi : (s.buf i).dirty = false)
    (hfresh : ∀ j, s.holds dev blockno j = false) :
    Coherent (s.setBuf i fun b =>
      { b with dev := dev, blockno := blockno, valid := false, dirty := false,
               refcnt := 1 }) := by
  have hother : ∀ j, (s.buf j).dev = dev → (s.buf j).blockno ≠ blockno := by
    intro j hdev hblockno
    have hholds : s.holds dev blockno j = true := by simp [holds, hdev, hblockno]
    simp [hfresh j] at hholds
  refine ⟨fun j k => ?_, fun j => ?_, fun j => ?_, fun j => ?_, fun b hb => ?_⟩
  · by_cases hj : j = i <;> by_cases hk : k = i
    · intro _ _ _
      rw [hj, hk]
    · subst j
      rw [setBuf_buf_self, setBuf_buf_of_ne s _ hk]
      intro _ hdev hblockno
      exact absurd hblockno.symm (hother k hdev.symm)
    · subst k
      rw [setBuf_buf_self, setBuf_buf_of_ne s _ hj]
      intro _ hdev hblockno
      exact absurd hblockno (hother j hdev)
    · rw [setBuf_buf_of_ne s _ hj, setBuf_buf_of_ne s _ hk]
      exact h.unique j k
  · by_cases hj : j = i
    · subst j
      simp
    · rw [setBuf_buf_of_ne s _ hj]
      exact h.valid_dev j
  · by_cases hj : j = i
    · subst j
      simp
    · rw [setBuf_buf_of_ne s _ hj]
      exact h.dirty_valid j
  · by_cases hj : j = i
    · subst j
      simp
    · rw [setBuf_buf_of_ne s _ hj]
      exact h.cached j
  · refine h.home b fun j hdev hblockno => ?_
    by_cases hj : j = i
    · rw [hj, hi]
    · have hsame := hb j
      rw [setBuf_buf_of_ne s _ hj] at hsame
      exact hsame hdev hblockno

theorem Coherent.disk_eq (hdev : (s.buf i).dev = rootDev) (hdirty : (s.buf i).dirty = false) :
    s.disk (s.buf i).blockno = s.contents rootDev (s.buf i).blockno := by
  refine h.home _ fun j hj hblockno => ?_
  have hne : (s.buf j).dev ≠ 0 := by
    rw [hj]
    decide
  rw [h.unique j i hne (hj.trans hdev.symm) hblockno, hdirty]

variable (hbuf : t.buf = update s.buf i c) (hdev : (s.buf i).dev = rootDev)
  (hdev' : c.dev = rootDev) (hblockno : c.blockno = (s.buf i).blockno)

include hbuf hdev hdev' hblockno in
/-- What has to be seen to when a buffer of the disk and its block are changed and
the rest stays as it is. -/
theorem Coherent.change (hvalid : c.dirty = true → c.valid = true)
    (htouched : ∀ j, j ≠ i → t.touched j = s.touched j)
    (hcontents : ∀ d b, (d, b) ≠ (rootDev, c.blockno) → t.contents d b = s.contents d b)
    (hdisk : ∀ b, b ≠ c.blockno → t.disk b = s.disk b)
    (hcached : c.valid = true → t.touched i = false → c.data = t.contents rootDev c.blockno)
    (hhome : c.dirty = false → t.disk c.blockno = t.contents rootDev c.blockno) : Coherent t := by
  have hself : t.buf i = c := by rw [hbuf, update_self]
  have hother : ∀ j, j ≠ i → t.buf j = s.buf j := by
    intro j hj
    rw [hbuf, update_of_ne hj]
  have hname : ∀ j, (t.buf j).dev = (s.buf j).dev ∧ (t.buf j).blockno = (s.buf j).blockno := by
    intro j
    by_cases hj : j = i
    · rw [hj, hself]
      exact ⟨hdev'.trans hdev.symm, hblockno⟩
    · rw [hother j hj]
      exact ⟨rfl, rfl⟩
  refine ⟨fun j k => ?_, fun j => ?_, fun j => ?_, fun j => ?_, fun b hb => ?_⟩
  · rw [(hname j).1, (hname k).1, (hname j).2, (hname k).2]
    exact h.unique j k
  · by_cases hj : j = i
    · rw [hj, hself]
      exact fun _ => hdev'
    · rw [hother j hj]
      exact h.valid_dev j
  · by_cases hj : j = i
    · rw [hj, hself]
      exact hvalid
    · rw [hother j hj]
      exact h.dirty_valid j
  · by_cases hj : j = i
    · rw [hj, hself, hdev']
      exact hcached
    · rw [hother j hj, htouched j hj]
      intro hv ht
      rw [hcontents, h.cached j hv ht]
      -- Another valid buffer belongs to another block.
      intro heq
      obtain ⟨hjdev, hjblockno⟩ := Prod.mk.inj heq
      refine hj (h.unique j i ?_ (hjdev.trans hdev.symm) (hjblockno.trans hblockno))
      rw [hjdev]
      decide
  · by_cases hbc : b = c.blockno
    · rw [hbc]
      have hclean := hb i
      rw [hself] at hclean
      exact hhome (hclean hdev' hbc.symm)
    · rw [hdisk b hbc, hcontents rootDev b fun heq => hbc (Prod.mk.inj heq).2]
      refine h.home b fun j hjdev hjblockno => ?_
      have hj : j ≠ i := by
        rintro rfl
        exact hbc (hjblockno.symm.trans hblockno.symm)
      have hclean := hb j
      rw [hother j hj] at hclean
      exact hclean hjdev hjblockno

theorem Coherent.fill (hdev : (s.buf i).dev = rootDev) (hdirty : (s.buf i).dirty = false) :
    Coherent (s.setBuf i fun b => { b with data := s.disk b.blockno, valid := true }) :=
  have hhome := h.disk_eq hdev hdirty
  h.change rfl hdev hdev rfl (fun _ => rfl) (fun _ _ => rfl) (fun _ _ _ => rfl) (fun _ _ => rfl)
    (fun _ _ => hhome) (fun _ => hhome)

theorem Coherent.modify (hvalid : (s.buf i).valid = true) (d : Block) :
    Coherent (s.modify i d) := by
  have hdev := h.valid_dev i hvalid
  refine h.change rfl hdev hdev rfl (fun _ => hvalid) (fun j hj => update_of_ne hj _ _)
    (fun _ _ _ => rfl) (fun _ _ => rfl) ?_ fun hdirty => h.disk_eq hdev hdirty
  intro _ htouched
  simp [State.modify] at htouched

include hbuf hdev hdev' hblockno in
theorem Coherent.give (hvalid : c.valid = true) (htouched : t.touched = s.touched)
    (hcontents : t.contents = s.contents) (hdisk : ∀ b, b ≠ c.blockno → t.disk b = s.disk b)
    (hhome : c.dirty = false → t.disk c.blockno = c.data) : Coherent (t.give i) := by
  have hself : t.buf i = c := by rw [hbuf, update_self]
  have hdata := t.give_contents_self i
  rw [hself, hdev'] at hdata
  refine h.change hbuf hdev hdev' hblockno (fun _ => hvalid) ?_ ?_ hdisk
    (fun _ _ => hdata.symm) fun hdirty => (hhome hdirty).trans hdata.symm
  · intro j hj
    rw [give_touched, if_neg hj, htouched]
  · intro d b hne
    rw [give_contents_of_ne, hcontents]
    rwa [hself, hdev']

end Xv6.BufferCache
