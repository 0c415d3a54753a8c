import Mathlib.Data.Fintype.Card
import Xv6.Storage.Buffer

/-!
# What the buffer cache shows

`Coherent s v` says that through the cache every block `b` of the root disk has
the contents `v b`: a cached copy agrees with `v`, and the disk itself agrees
with `v` on every block that no dirty buffer holds. Reading a block keeps `v`,
and writing a buffer changes `v` and the disk together.
-/

namespace Xv6

open Routine Function Finset

namespace Storage

variable {i : Fin nBuf} {b : ℕ} {Q : Unit → Storage → Prop} {E : Halt → Storage → Prop}
  {H : Finset (Fin nBuf)}

def Pinned (s : Storage) (b : ℕ) : Prop :=
  ∃ i, (s.buf i).dev = rootDev ∧ (s.buf i).blockno = b ∧ (s.buf i).dirty = true

/-- The logical contents of the root disk, seen through the cache, are `v`. -/
structure Coherent (s : Storage) (v : ℕ → Block) : Prop where
  listed : ∀ i, i ∈ s.cache.order
  unique : ∀ i j, (s.buf i).dev = rootDev → (s.buf j).dev = rootDev →
    (s.buf i).blockno = (s.buf j).blockno → i = j
  dirty_valid : ∀ i, (s.buf i).dev = rootDev → (s.buf i).dirty = true → (s.buf i).valid = true
  cached : ∀ i, (s.buf i).dev = rootDev → (s.buf i).valid = true →
    (s.buf i).data = v (s.buf i).blockno
  home : ∀ b, ¬ s.Pinned b → s.disk b = v b

/-- Buffer `i` is in use: it is the valid, locked copy of block `b`. -/
structure Holds (s : Storage) (i : Fin nBuf) (b : ℕ) : Prop where
  dev : (s.buf i).dev = rootDev
  blockno : (s.buf i).blockno = b
  valid : (s.buf i).valid = true
  locked : (s.buf i).locked = true
  refcnt : 0 < (s.buf i).refcnt

/-- The parts of the storage that no read changes. -/
structure SameStore (s t : Storage) : Prop where
  image : t.image = s.image
  writes : t.writes = s.writes
  diskSize : t.diskSize = s.diskSize
  log : t.log = s.log

theorem SameStore.refl (s : Storage) : SameStore s s := ⟨rfl, rfl, rfl, rfl⟩

theorem SameStore.trans {s t u : Storage} (h : SameStore s t) (h' : SameStore t u) :
    SameStore s u :=
  ⟨h'.image.trans h.image, h'.writes.trans h.writes, h'.diskSize.trans h.diskSize,
    h'.log.trans h.log⟩

theorem sameStore_setBuf (s : Storage) (i : Fin nBuf) (f : Buf → Buf) :
    SameStore s (s.setBuf i f) := ⟨rfl, rfl, rfl, rfl⟩

end Storage

open Storage

variable {s : Storage} {v : ℕ → Block}

def Buf.contents (b : Buf) : Buf := { b with locked := false, refcnt := 0 }

theorem Buf.contents_eq_iff {b c : Buf} : b.contents = c.contents ↔
    b.dev = c.dev ∧ b.blockno = c.blockno ∧ b.valid = c.valid ∧ b.dirty = c.dirty ∧
      b.data = c.data := by
  simp only [Buf.contents, Buf.mk.injEq]
  tauto

theorem Storage.Coherent.of_contents {t : Storage} (h : s.Coherent v)
    (hlisted : ∀ i, i ∈ t.cache.order) (hdisk : t.disk = s.disk)
    (hbuf : ∀ i, (t.buf i).contents = (s.buf i).contents) : t.Coherent v := by
  have hdev := fun i => (Buf.contents_eq_iff.1 (hbuf i)).1
  have hno := fun i => (Buf.contents_eq_iff.1 (hbuf i)).2.1
  have hvalid := fun i => (Buf.contents_eq_iff.1 (hbuf i)).2.2.1
  have hdirty := fun i => (Buf.contents_eq_iff.1 (hbuf i)).2.2.2.1
  have hdata := fun i => (Buf.contents_eq_iff.1 (hbuf i)).2.2.2.2
  refine ⟨hlisted, ?_, ?_, ?_, ?_⟩
  · intro i j
    rw [hdev, hdev, hno, hno]
    exact h.unique i j
  · intro i
    rw [hdev, hdirty, hvalid]
    exact h.dirty_valid i
  · intro i
    rw [hdev, hvalid, hdata, hno]
    exact h.cached i
  · intro b hb
    rw [hdisk]
    refine h.home b fun ⟨i, hi, hib, hid⟩ => hb ⟨i, ?_, ?_, ?_⟩
    · rw [hdev, hi]
    · rw [hno, hib]
    · rw [hdirty, hid]

theorem contents_setBuf (i : Fin nBuf) (f : Buf → Buf)
    (hf : (f (s.buf i)).contents = (s.buf i).contents) (j : Fin nBuf) :
    ((s.setBuf i f).buf j).contents = (s.buf j).contents := by
  by_cases hj : j = i
  · subst j
    rw [setBuf_buf_self, hf]
  · rw [setBuf_buf_of_ne s f hj]

def Storage.KeepsHolds (s t : Storage) : Prop := ∀ j c, s.Holds j c → t.Holds j c

theorem Storage.Holds.of_buf_eq {t : Storage} {j : Fin nBuf} {c : ℕ} (h : s.Holds j c)
    (hbuf : t.buf j = s.buf j) : t.Holds j c := by
  refine ⟨?_, ?_, ?_, ?_, ?_⟩ <;> rw [hbuf]
  · exact h.dev
  · exact h.blockno
  · exact h.valid
  · exact h.locked
  · exact h.refcnt

def Storage.Found (s : Storage) (b : ℕ) (i : Fin nBuf) (c : Buf) : Prop :=
  (s.buf i).dev = rootDev ∧ (s.buf i).blockno = b ∧ (s.buf i).locked = false ∧
    c = { s.buf i with refcnt := (s.buf i).refcnt + 1, locked := true }

def Storage.Recycled (s : Storage) (b : ℕ) (i : Fin nBuf) (c : Buf) : Prop :=
  (∀ j, (s.buf j).dev = rootDev → (s.buf j).blockno ≠ b) ∧
    (s.buf i).refcnt = 0 ∧ (s.buf i).dirty = false ∧ (s.buf i).locked = false ∧
    c = { s.buf i with dev := rootDev, blockno := b, valid := false, dirty := false,
                       refcnt := 1, locked := true }

def Storage.Stuck (s : Storage) (b : ℕ) : Prop :=
  (∃ i, (s.buf i).dev = rootDev ∧ (s.buf i).blockno = b ∧ (s.buf i).locked = true) ∨
    (∃ i, (s.buf i).refcnt = 0 ∧ (s.buf i).locked = true) ∨
    ∀ i, (s.buf i).refcnt = 0 → (s.buf i).dirty = true

theorem holds_iff {dev b : ℕ} :
    s.cache.holds dev b i = true ↔ (s.buf i).dev = dev ∧ (s.buf i).blockno = b := by
  simp [BCache.holds, buf]

theorem unused_iff : s.cache.unused i = true ↔ (s.buf i).refcnt = 0 ∧ (s.buf i).dirty = false := by
  simp [BCache.unused, buf]

theorem bget_cases (hlisted : ∀ i, i ∈ s.cache.order) (b : ℕ) :
    wp (bget rootDev b)
      (fun i t => ∃ c, t = (s.setBuf i fun _ => c) ∧ (s.Found b i c ∨ s.Recycled b i c))
      (fun _ t => s.SameStore t ∧ s.Stuck b) s := by
  simp only [bget, wp_bind, wp_look, id_eq]
  cases hfind : s.cache.order.find? (s.cache.holds rootDev b) with
  | some i =>
    have hi := holds_iff.1 (List.find?_some hfind)
    simp only [acquiresleep, wp_bind, wp_update, wp_look, id_eq, wp_ite, wp_stop, wp_pure,
      setBuf_buf_self, setBuf_setBuf]
    refine ⟨fun hl => ⟨sameStore_setBuf _ _ _, .inl ⟨i, hi.1, hi.2, hl⟩⟩, fun hl => ?_⟩
    exact ⟨_, rfl, .inl ⟨hi.1, hi.2, by simpa using hl, rfl⟩⟩
  | none =>
    have hnone : ∀ j, (s.buf j).dev = rootDev → (s.buf j).blockno ≠ b := by
      intro j hj hjb
      exact List.find?_eq_none.1 hfind j (hlisted j) (holds_iff.2 ⟨hj, hjb⟩)
    cases hfree : s.cache.order.reverse.find? s.cache.unused with
    | none =>
      refine ⟨SameStore.refl s, .inr (.inr fun i hi => ?_)⟩
      have hi' := List.find?_eq_none.1 hfree i (List.mem_reverse.2 (hlisted i))
      by_contra hd
      exact hi' (unused_iff.2 ⟨hi, by simpa using hd⟩)
    | some i =>
      have hi := unused_iff.1 (List.find?_some hfree)
      simp only [acquiresleep, wp_bind, wp_update, wp_look, id_eq, wp_ite, wp_stop,
        wp_pure, setBuf_buf_self, setBuf_setBuf]
      refine ⟨fun hl => ⟨sameStore_setBuf _ _ _, .inr (.inl ⟨i, hi.1, hl⟩)⟩,
        fun hl => ?_⟩
      exact ⟨_, rfl, .inr ⟨hnone, hi.1, hi.2, by simpa using hl, rfl⟩⟩

theorem wp_iderw_read (hlocked : (s.buf i).locked = true) (hvalid : (s.buf i).valid = false)
    (hclean : (s.buf i).dirty = false) (hdev : (s.buf i).dev = rootDev) :
    wp (iderw i) Q E s ↔ (s.diskSize ≤ (s.buf i).blockno → E .outOfRange s) ∧
        (¬ s.diskSize ≤ (s.buf i).blockno →
          Q () (s.setBuf i fun b => { b with data := s.disk b.blockno, valid := true })) := by
  simp [iderw, hlocked, hvalid, hclean, hdev]

theorem wp_iderw_write (hlocked : (s.buf i).locked = true) (hdirty : (s.buf i).dirty = true)
    (hdev : (s.buf i).dev = rootDev) :
    wp (iderw i) Q E s ↔ (s.diskSize ≤ (s.buf i).blockno → E .outOfRange s) ∧
        (¬ s.diskSize ≤ (s.buf i).blockno →
          Q () ((s.issue (s.buf i).blockno (s.buf i).data).setBuf i fun b =>
            { b with dirty := false, valid := true })) := by
  simp [iderw, hlocked, hdirty, hdev]

/-- `bread` made buffer `i` the buffer `c`: a locked valid copy of block `b`,
either the cached one or one just read from the disk. -/
structure Storage.Reads (s : Storage) (b : ℕ) (i : Fin nBuf) (c : Buf) : Prop where
  unlocked : (s.buf i).locked = false
  dev : c.dev = rootDev
  blockno : c.blockno = b
  valid : c.valid = true
  locked : c.locked = true
  refcnt : c.refcnt = (s.buf i).refcnt + 1
  source : c.contents = (s.buf i).contents ∨
    ((s.buf i).dirty = false ∧ (∀ j, j ≠ i → (s.buf j).dev = rootDev → (s.buf j).blockno ≠ b) ∧
      c.dirty = false ∧ c.data = s.disk b)

theorem bread_cases (h : s.Coherent v) (b : ℕ) :
    wp (bread rootDev b) (fun i t => ∃ c, t = (s.setBuf i fun _ => c) ∧ s.Reads b i c)
      (fun _ t => s.SameStore t ∧ (s.Stuck b ∨ s.diskSize ≤ b)) s := by
  rw [bread, wp_bind]
  refine wp_mono (bget_cases h.listed b) ?_ fun _ t ht => ⟨ht.1, .inl ht.2⟩
  rintro i t ⟨c, rfl, hc⟩
  simp only [wp_bind, wp_look, id_eq, wp_ite, wp_pure, setBuf_buf_self]
  rcases hc with ⟨hdev, hno, hlocked, rfl⟩ | ⟨hnone, hrefcnt, hdirty, hlocked, rfl⟩
  · refine ⟨fun hinvalid => ?_, fun hvalid => ?_⟩
    · have hclean : (s.buf i).dirty = false := by
        by_contra hd
        have := h.dirty_valid i hdev (by simpa using hd)
        rw [hinvalid] at this
        cases this
      rw [wp_iderw_read (by simp) (by simpa using hinvalid) (by simpa using hclean)
        (by simpa using hdev)]
      simp only [setBuf_buf_self, setBuf_setBuf, setBuf_disk, setBuf_diskSize, hno]
      refine ⟨fun hsize => ⟨sameStore_setBuf _ _ _, .inr hsize⟩, fun _ => ⟨_, rfl, ?_⟩⟩
      refine ⟨hlocked, hdev, rfl, rfl, rfl, rfl, .inr ⟨hclean, ?_, hclean, rfl⟩⟩
      intro j hj hjdev hjb
      exact hj (h.unique j i hjdev hdev (hjb.trans hno.symm))
    · exact ⟨_, rfl, hlocked, hdev, hno, by simpa using hvalid, rfl, rfl, .inl rfl⟩
  · refine ⟨fun _ => ?_, fun hvalid => absurd rfl hvalid⟩
    rw [wp_iderw_read (by simp) (by simp) (by simp) (by simp)]
    simp only [setBuf_buf_self, setBuf_setBuf, setBuf_disk, setBuf_diskSize]
    refine ⟨fun hsize => ⟨sameStore_setBuf _ _ _, .inr hsize⟩, fun _ => ⟨_, rfl, ?_⟩⟩
    refine ⟨hlocked, rfl, rfl, rfl, rfl, ?_, .inr ⟨hdirty, ?_, rfl, rfl⟩⟩
    · rw [hrefcnt]
    · intro j _ hjdev
      exact hnone j hjdev

theorem Storage.Coherent.reads (h : s.Coherent v) {c : Buf}
    (hc : s.Reads b i c) : (s.setBuf i fun _ => c).Coherent v := by
  rcases hc.source with hsame | ⟨hdirty, hothers, hclean, hdata⟩
  · exact h.of_contents h.listed rfl (contents_setBuf i _ hsame)
  have hpinned : ∀ a, (s.setBuf i fun _ => c).Pinned a ↔ s.Pinned a := by
    intro a
    constructor
    · rintro ⟨j, hj, hja, hjd⟩
      rw [setBuf_buf] at hj hja hjd
      split_ifs at hj hja hjd with hji
      · simp [hclean] at hjd
      · exact ⟨j, hj, hja, hjd⟩
    · rintro ⟨j, hj, hja, hjd⟩
      have hji : j ≠ i := by
        rintro rfl
        simp [hdirty] at hjd
      refine ⟨j, ?_⟩
      rw [setBuf_buf_of_ne s _ hji]
      exact ⟨hj, hja, hjd⟩
  have hhome : s.disk b = v b := by
    refine h.home b fun ⟨j, hj, hjb, hjd⟩ => ?_
    by_cases hji : j = i
    · simp [hji, hdirty] at hjd
    · exact hothers j hji hj hjb
  refine ⟨h.listed, ?_, ?_, ?_, fun a ha => h.home a fun hp => ha ((hpinned a).2 hp)⟩
  · intro j k hj hk hjk
    simp only [setBuf_buf] at hj hk hjk
    split_ifs at hj hk hjk with hji hki hki
    · rw [hji, hki]
    · exact absurd (hjk.symm.trans hc.blockno) (hothers k hki hk)
    · exact absurd (hjk.trans hc.blockno) (hothers j hji hj)
    · exact h.unique j k hj hk hjk
  · intro j hj hd
    rw [setBuf_buf] at hj hd ⊢
    split_ifs at hj hd ⊢ with hji
    · exact hc.valid
    · exact h.dirty_valid j hj hd
  · intro j hj hv
    rw [setBuf_buf] at hj hv ⊢
    split_ifs at hj hv ⊢ with hji
    · rw [hdata, hhome, hc.blockno]
    · exact h.cached j hj hv

/-- Nothing is dirty, the buffers of `H` have one user each, and no other buffer
is in use. -/
structure Storage.Quiet (s : Storage) (H : Finset (Fin nBuf)) : Prop where
  clean : ∀ i, (s.buf i).dirty = false
  inUse : ∀ i ∈ H, (s.buf i).locked = true ∧ (s.buf i).refcnt = 1
  idle : ∀ i, i ∉ H → (s.buf i).locked = false ∧ (s.buf i).refcnt = 0

/-- With a buffer to spare, a quiet cache always yields a buffer. -/
theorem Storage.Quiet.not_stuck (h : s.Quiet H)
    (hlen : H.card < nBuf) (hb : ∀ i ∈ H, (s.buf i).blockno ≠ b) : ¬ s.Stuck b := by
  rintro (⟨i, -, hib, hi⟩ | ⟨i, hcnt, hi⟩ | hall)
  · by_cases hiH : i ∈ H
    · exact hb i hiH hib
    · simp [(h.idle i hiH).1] at hi
  · by_cases hiH : i ∈ H
    · simp [(h.inUse i hiH).2] at hcnt
    · simp [(h.idle i hiH).1] at hi
  · obtain ⟨i, hiH⟩ : ∃ i, i ∉ H := by
      by_contra hcon
      have huniv : H = Finset.univ := eq_univ_iff_forall.2 fun i => by
        by_contra hi
        exact hcon ⟨i, hi⟩
      rw [huniv, card_univ, Fintype.card_fin] at hlen
      exact lt_irrefl _ hlen
    have hd := hall i (h.idle i hiH).2
    simp [h.clean i] at hd

/-- A quiet cache stays quiet with the buffer just read added to those in use. -/
theorem Storage.Quiet.reads (h : s.Quiet H)
    {c : Buf} (hc : s.Reads b i c) : i ∉ H ∧ (s.setBuf i fun _ => c).Quiet (insert i H) := by
  have hi : i ∉ H := fun hiH => by
    have hl := (h.inUse i hiH).1
    simp [hc.unlocked] at hl
  refine ⟨hi, ?_, ?_, ?_⟩
  · intro j
    rw [setBuf_buf]
    split_ifs with hji
    · rcases hc.source with hsame | ⟨_, _, hclean, _⟩
      · rw [(Buf.contents_eq_iff.1 hsame).2.2.2.1]
        exact h.clean i
      · exact hclean
    · exact h.clean j
  · intro j hj
    rw [setBuf_buf]
    split_ifs with hji
    · exact ⟨hc.locked, by rw [hc.refcnt, (h.idle i hi).2]⟩
    · exact h.inUse j ((mem_insert.1 hj).resolve_left hji)
  · intro j hj
    have hji : j ≠ i := fun hji => hj (hji ▸ mem_insert_self _ _)
    rw [setBuf_buf_of_ne s _ hji]
    exact h.idle j fun hjH => hj (mem_insert_of_mem hjH)

variable (h : s.Coherent v)
include h

/-- `bread` returns a held buffer and shows the same contents as before; on a
quiet cache it fails only for a block past the end of the disk. -/
theorem bread_spec (b : ℕ) :
    wp (bread rootDev b) (fun i t => t.Coherent v ∧ s.SameStore t ∧ t.Holds i b ∧ s.KeepsHolds t ∧
        ∀ H, s.Quiet H → i ∉ H ∧ t.Quiet (insert i H))
      (fun _ t => s.SameStore t ∧ ∀ H, s.Quiet H → H.card < nBuf →
        (∀ j ∈ H, (s.buf j).blockno ≠ b) → s.diskSize ≤ b) s := by
  refine wp_mono (bread_cases h b) ?_ ?_
  · rintro i t ⟨c, rfl, hc⟩
    refine ⟨h.reads hc, sameStore_setBuf _ _ _, ?_, ?_, fun H hH => hH.reads hc⟩
    · refine ⟨?_, ?_, ?_, ?_, ?_⟩ <;> rw [setBuf_buf_self]
      · exact hc.dev
      · exact hc.blockno
      · exact hc.valid
      · exact hc.locked
      · rw [hc.refcnt]
        exact Nat.succ_pos _
    · intro j b' hj
      refine hj.of_buf_eq (setBuf_buf_of_ne s _ ?_)
      rintro rfl
      have hl := hj.locked
      simp [hc.unlocked] at hl
  · rintro _ t ⟨hs, hstuck | hsize⟩
    · exact ⟨hs, fun H hH hlen hb => absurd hstuck (hH.not_stuck hlen hb)⟩
    · exact ⟨hs, fun _ _ _ _ => hsize⟩

/-- A state that differs by one block, in its cached copy and on the disk. -/
theorem Storage.Coherent.written {t : Storage} {d : Block} (hi : s.Holds i b)
    (hlisted : ∀ j, j ∈ t.cache.order) (hdisk : t.disk = update s.disk b d)
    (hother : ∀ j, j ≠ i → t.buf j = s.buf j)
    (hself : t.buf i = { s.buf i with data := d, dirty := false, valid := true }) :
    t.Coherent (update v b d) := by
  have hdev : ∀ j, (t.buf j).dev = (s.buf j).dev := by
    intro j
    by_cases hji : j = i
    · rw [hji, hself]
    · rw [hother j hji]
  have hno : ∀ j, (t.buf j).blockno = (s.buf j).blockno := by
    intro j
    by_cases hji : j = i
    · rw [hji, hself]
    · rw [hother j hji]
  refine ⟨hlisted, ?_, ?_, ?_, ?_⟩
  · intro j k
    rw [hdev, hdev, hno, hno]
    exact h.unique j k
  · intro j hj hd
    by_cases hji : j = i
    · rw [hji, hself]
    · rw [hother j hji] at hj hd ⊢
      exact h.dirty_valid j hj hd
  · intro j hj hv
    by_cases hji : j = i
    · rw [hji, hself, hi.blockno, update_self]
    · have hne : (s.buf j).blockno ≠ b := fun hjb =>
        hji (h.unique j i (hdev j ▸ hj) hi.dev (hjb.trans hi.blockno.symm))
      rw [hother j hji] at hj hv ⊢
      rw [update_of_ne hne]
      exact h.cached j hj hv
  · intro c hc
    rw [hdisk]
    by_cases hcb : c = b
    · rw [hcb, update_self, update_self]
    · rw [update_of_ne hcb, update_of_ne hcb]
      refine h.home c fun ⟨j, hj, hjc, hjd⟩ => hc ⟨j, ?_⟩
      have hji : j ≠ i := by
        rintro rfl
        exact hcb (hjc.symm.trans hi.blockno)
      rw [hother j hji]
      exact ⟨hj, hjc, hjd⟩

/-- `bwrite` of a held buffer with new data changes the block it holds, in the
cache and on the disk. -/
theorem bwrite_spec (hi : s.Holds i b) (d : Block) :
    wp (bwrite i) (fun _ t => t.Coherent (update v b d) ∧ (s.issue b d).SameStore t ∧
        s.KeepsHolds t ∧ ∀ H, s.Quiet H → t.Quiet H)
      (fun _ t => s.SameStore t ∧ s.diskSize ≤ b)
      (s.setBuf i fun c => { c with data := d }) := by
  have hlocked : ((s.setBuf i fun c => { c with data := d }).buf i).locked = true := by
    rw [setBuf_buf_self]
    exact hi.locked
  simp only [bwrite, wp_bind, wp_look, id_eq, wp_ite, wp_stop, wp_update, hlocked]
  refine ⟨by simp, fun _ => ?_⟩
  rw [wp_iderw_write (by simp [hi.locked]) (by simp) (by simp [hi.dev])]
  simp only [setBuf_buf_self, hi.blockno, setBuf_setBuf, setBuf_diskSize]
  have hother : ∀ (f g : Buf → Buf) j, j ≠ i →
      (((s.setBuf i f).issue b d).setBuf i g).buf j = s.buf j := by
    intro f g j hji
    rw [setBuf_buf_of_ne _ _ hji, issue_buf, setBuf_buf_of_ne _ _ hji]
  refine ⟨fun hsize => ⟨⟨rfl, rfl, rfl, rfl⟩, hsize⟩, fun _ =>
    ⟨?_, ⟨rfl, rfl, rfl, rfl⟩, ?_, ?_⟩⟩
  · refine h.written hi h.listed ?_ (hother _ _) ?_
    · rw [setBuf_disk, issue_disk, setBuf_disk]
    · simp [hi.blockno]
  · intro j c hj
    by_cases hji : j = i
    · subst j
      refine ⟨?_, ?_, ?_, ?_, ?_⟩ <;> simp only [setBuf_buf_self, issue_buf]
      · exact hj.dev
      · exact hi.blockno.symm.trans hj.blockno
      · exact hj.locked
      · exact hj.refcnt
    · exact hj.of_buf_eq (hother _ _ j hji)
  · intro H hH
    refine ⟨?_, ?_, ?_⟩
    · intro j
      by_cases hji : j = i
      · rw [hji, setBuf_buf_self]
      · rw [hother _ _ j hji]
        exact hH.clean j
    · intro j hj
      by_cases hji : j = i
      · subst j
        simpa using hH.inUse i hj
      · rw [hother _ _ j hji]
        exact hH.inUse j hj
    · intro j hj
      by_cases hji : j = i
      · subst j
        simpa using hH.idle i hj
      · rw [hother _ _ j hji]
        exact hH.idle j hj

theorem Storage.Coherent.toFront (i : Fin nBuf) : (s.toFront i).Coherent v := by
  refine h.of_contents ?_ rfl fun _ => rfl
  intro j
  by_cases hji : j = i
  · rw [hji]
    exact List.mem_cons_self
  · exact List.mem_cons_of_mem _ ((List.mem_erase_of_ne hji).2 (h.listed j))

theorem brelse_spec (hi : s.Holds i b) :
    wp (brelse i) (fun _ t => t.Coherent v ∧ s.SameStore t ∧
        (∀ j c, j ≠ i → s.Holds j c → t.Holds j c) ∧
        ∀ H, i ∉ H → s.Quiet (insert i H) → t.Quiet H)
      (fun _ _ => False) s := by
  simp only [brelse, releasesleep, wp_bind, wp_look, id_eq, wp_ite, wp_stop, wp_update,
    wp_pure, hi.locked, setBuf_setBuf]
  refine ⟨by simp, fun _ => ?_⟩
  generalize hu : (s.setBuf i fun _ =>
    { s.buf i with locked := false, refcnt := (s.buf i).refcnt - 1 }) = u
  have hcoh : u.Coherent v := by
    rw [← hu]
    exact h.of_contents h.listed rfl (contents_setBuf i _ rfl)
  have hstore : s.SameStore u := hu ▸ sameStore_setBuf _ _ _
  have hother : ∀ j, j ≠ i → u.buf j = s.buf j := by
    intro j hji
    rw [← hu, setBuf_buf_of_ne _ _ hji]
  have hholds : ∀ j c, j ≠ i → s.Holds j c → u.Holds j c :=
    fun j c hji hj => hj.of_buf_eq (hother j hji)
  have hquiet : ∀ H, i ∉ H → s.Quiet (insert i H) → u.Quiet H := by
    intro H hiH hH
    refine ⟨?_, ?_, ?_⟩
    · intro j
      by_cases hji : j = i
      · rw [hji, ← hu, setBuf_buf_self]
        exact hH.clean i
      · rw [hother j hji]
        exact hH.clean j
    · intro j hj
      rw [hother j (ne_of_mem_of_not_mem hj hiH)]
      exact hH.inUse j (mem_insert_of_mem hj)
    · intro j hj
      by_cases hji : j = i
      · rw [hji, ← hu, setBuf_buf_self]
        refine ⟨rfl, ?_⟩
        rw [(hH.inUse i (mem_insert_self _ _)).2]
      · rw [hother j hji]
        refine hH.idle j ?_
        simp [hji, hj]
  refine ⟨fun _ => ⟨hcoh.toFront i, { hstore with }, ?_, ?_⟩,
    fun _ => ⟨hcoh, hstore, hholds, hquiet⟩⟩
  · intro j c hji hj
    exact (hholds j c hji hj).of_buf_eq rfl
  · intro H hiH hH
    have hq := hquiet H hiH hH
    exact ⟨hq.clean, hq.inUse, hq.idle⟩

end Xv6
