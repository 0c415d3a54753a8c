import Xv6.BufferCache.Model
import Xv6.Library.Counting

/-!
# References and locks of the buffers

A reference of a buffer is a process that waits for its lock, that holds the lock,
or that has released the lock and not yet the reference. `HeldAt` says that
`refcnt` counts them, so that a buffer with the count 0 is in nobody's hands. An
event concerns one buffer, and `Held.move` is what it has to see to there.
-/

namespace Xv6.BufferCache

open Function

variable {P : Type*} {s t : State P} {i : Fin nBuf} {dev blockno : ℕ} {c : Pc}

@[simp] def Pc.buffer : Pc → Option (Fin nBuf)
  | .idle => none
  | .waiting _ _ i | .locked _ _ i | .released i => some i

@[simp] def Pc.refers (i : Fin nBuf) : Pc → Prop
  | .waiting _ _ j | .released j => j = i
  | .idle | .locked _ _ _ => False

instance Pc.decidableRefers (i : Fin nBuf) : DecidablePred (Pc.refers i)
  | .waiting _ _ j | .released j => inferInstanceAs (Decidable (j = i))
  | .idle | .locked _ _ _ => inferInstanceAs (Decidable False)

@[simp] def Pc.fetches (i : Fin nBuf) : Pc → Prop
  | .locked _ _ j => j = i
  | .idle | .waiting _ _ _ | .released _ => False

def Pc.reads (dev blockno : ℕ) (i : Fin nBuf) (c : Pc) : Prop :=
  c = .waiting dev blockno i ∨ c = .locked dev blockno i

theorem Pc.not_of_buffer_ne (hc : c.buffer ≠ some i) :
    ¬ c.refers i ∧ ¬ c.fetches i ∧ ∀ dev blockno, ¬ c.reads dev blockno i := by
  cases c with
  | idle => simp [refers, fetches, reads]
  | waiting d n j =>
    have hj : j ≠ i := by simpa [buffer] using hc
    simp [refers, fetches, reads, hj]
  | locked d n j =>
    have hj : j ≠ i := by simpa [buffer] using hc
    simp [refers, fetches, reads, hj]
  | released j =>
    have hj : j ≠ i := by simpa [buffer] using hc
    simp [refers, fetches, reads, hj]

theorem Pc.refers_or_fetches (hc : c.buffer = some i) : c.refers i ∨ c.fetches i := by
  cases c with
  | idle => cases hc
  | waiting d n j => exact .inl (Option.some.inj hc)
  | locked d n j => exact .inr (Option.some.inj hc)
  | released j => exact .inl (Option.some.inj hc)

theorem Pc.buffer_of_reads (h : c.reads dev blockno i) : c.buffer = some i := by
  rcases h with heq | heq
  · rw [heq]
    rfl
  · rw [heq]
    rfl

theorem touched_cases (s : State P) (ht : s.touched i = true) (p : P) (hc : ¬ c.fetches i) :
    (s.buf i).lock = some p ∧ ¬ c.fetches i ∨ s.touched i = true ∧ (s.buf i).lock ≠ some p := by
  by_cases hp : (s.buf i).lock = some p
  · exact .inl ⟨hp, hc⟩
  · exact .inr ⟨ht, hp⟩

section Held

variable [Fintype P]

def State.refs (s : State P) (i : Fin nBuf) : ℕ :=
  (Finset.univ.filter fun p => (s.pc p).refers i).card

/-- What the processes rely on at a buffer: its references are counted, it belongs
to the block that it is read for, the lock is with the process that goes on to read
it, and a process that has got it to use has a valid one. -/
structure HeldAt (s : State P) (i : Fin nBuf) : Prop where
  count : (s.buf i).refcnt = s.refs i + if (s.buf i).lock = none then 0 else 1
  asked : ∀ p dev blockno, (s.pc p).reads dev blockno i →
    dev ≠ 0 ∧ (s.buf i).dev = dev ∧ (s.buf i).blockno = blockno
  locked : ∀ p, (s.pc p).fetches i → (s.buf i).lock = some p
  usable : ∀ p, (s.buf i).lock = some p → ¬ (s.pc p).fetches i → (s.buf i).valid = true
  touched : s.touched i = true → ∃ p, (s.buf i).lock = some p ∧ ¬ (s.pc p).fetches i

def Held (s : State P) : Prop := ∀ i, HeldAt s i

theorem HeldAt.free (h : HeldAt s i) (hi : (s.buf i).refcnt = 0) :
    (s.buf i).lock = none ∧ ∀ p, (s.pc p).buffer ≠ some i := by
  have hcount := h.count
  have hlock : (s.buf i).lock = none := by
    by_contra hne
    rw [if_neg hne] at hcount
    omega
  have hrefs : s.refs i = 0 := by omega
  refine ⟨hlock, fun p hp => ?_⟩
  have hrefers : ¬ (s.pc p).refers i := by
    have hempty := Finset.card_eq_zero.1 hrefs
    exact (Finset.filter_eq_empty_iff.1 hempty) (Finset.mem_univ p)
  rcases Pc.refers_or_fetches hp with href | hfetch
  · exact hrefers href
  · simp [h.locked p hfetch] at hlock

theorem HeldAt.refcnt_pos (h : HeldAt s i) {p : P} (hp : (s.pc p).buffer = some i) :
    0 < (s.buf i).refcnt := by
  by_contra hzero
  exact (h.free (Nat.eq_zero_of_not_pos hzero)).2 p hp

theorem HeldAt.frame (h : HeldAt s i) (hbuf : t.buf i = s.buf i)
    (htouched : t.touched i = s.touched i)
    (hpc : ∀ q, t.pc q = s.pc q ∨ (t.pc q).buffer ≠ some i ∧ (s.pc q).buffer ≠ some i) :
    HeldAt t i := by
  have hrefers : ∀ q, (t.pc q).refers i ↔ (s.pc q).refers i := by
    intro q
    rcases hpc q with heq | ⟨ht, hs⟩
    · rw [heq]
    · exact iff_of_false (Pc.not_of_buffer_ne ht).1 (Pc.not_of_buffer_ne hs).1
  have hfetches : ∀ q, (t.pc q).fetches i ↔ (s.pc q).fetches i := by
    intro q
    rcases hpc q with heq | ⟨ht, hs⟩
    · rw [heq]
    · exact iff_of_false (Pc.not_of_buffer_ne ht).2.1 (Pc.not_of_buffer_ne hs).2.1
  have hrefs : t.refs i = s.refs i := by simp only [State.refs, hrefers]
  refine ⟨?_, fun q d n hq => ?_, fun q => ?_, fun q => ?_, ?_⟩
  · rw [hbuf, hrefs]
    exact h.count
  · rw [hbuf]
    rcases hpc q with heq | ⟨ht, -⟩
    · rw [heq] at hq
      exact h.asked q d n hq
    · exact absurd hq ((Pc.not_of_buffer_ne ht).2.2 d n)
  · rw [hbuf, hfetches]
    exact h.locked q
  · rw [hbuf, hfetches]
    exact h.usable q
  · rw [hbuf, htouched]
    simp only [hfetches]
    exact h.touched

variable [DecidableEq P] {p : P} {c : Pc} {b : Buf P}

theorem refs_update (hpc : t.pc = update s.pc p c) (i : Fin nBuf) :
    t.refs i + (if (s.pc p).refers i then 1 else 0) =
      s.refs i + if c.refers i then 1 else 0 := by
  rw [State.refs, hpc]
  exact Counting.card_filter_update s.pc p c (Pc.refers i)

/-- What a process that goes from one point to another and changes a buffer has to see to: the
count, the block and the lock of this buffer. -/
structure Handles (s t : State P) (i : Fin nBuf) (p : P) (c : Pc) (b : Buf P) : Prop where
  count : (b.refcnt + if (s.pc p).refers i then 1 else 0) +
      (if (s.buf i).lock = none then 0 else 1) =
    ((s.buf i).refcnt + if c.refers i then 1 else 0) + if b.lock = none then 0 else 1
  asked : ∀ d n, c.reads d n i → d ≠ 0 ∧ b.dev = d ∧ b.blockno = n
  name : ∀ q, (s.pc q).buffer = some i →
    b.dev = (s.buf i).dev ∧ b.blockno = (s.buf i).blockno
  lock : ∀ q, q ≠ p → (b.lock = some q ↔ (s.buf i).lock = some q)
  valid : ∀ q, q ≠ p → b.lock = some q → (s.buf i).valid = true → b.valid = true
  fetch : c.fetches i → b.lock = some p
  usable : b.lock = some p → ¬ c.fetches i → b.valid = true
  touch : t.touched i = true →
    b.lock = some p ∧ ¬ c.fetches i ∨ s.touched i = true ∧ (s.buf i).lock ≠ some p

theorem HeldAt.move (h : HeldAt s i) (hself : t.buf i = b) (hpc : t.pc = update s.pc p c)
    (hm : Handles s t i p c b) : HeldAt t i := by
  have hp : t.pc p = c := by rw [hpc, update_self]
  have hq : ∀ q, q ≠ p → t.pc q = s.pc q := by
    intro q hq
    rw [hpc, update_of_ne hq]
  refine ⟨?_, fun q d n => ?_, fun q => ?_, fun q => ?_, fun ht => ?_⟩
  · have hrefs := refs_update hpc i
    have hold := h.count
    have hcount := hm.count
    rw [hself]
    omega
  · by_cases hqp : q = p
    · rw [hqp, hp, hself]
      exact hm.asked d n
    · rw [hq q hqp, hself]
      intro hread
      obtain ⟨hdev, hblockno⟩ := hm.name q (Pc.buffer_of_reads hread)
      rw [hdev, hblockno]
      exact h.asked q d n hread
  · by_cases hqp : q = p
    · rw [hqp, hp, hself]
      exact hm.fetch
    · rw [hq q hqp, hself, hm.lock q hqp]
      exact h.locked q
  · by_cases hqp : q = p
    · rw [hqp, hp, hself]
      exact hm.usable
    · rw [hq q hqp, hself]
      intro hql hqf
      exact hm.valid q hqp hql (h.usable q ((hm.lock q hqp).1 hql) hqf)
  · rw [hself]
    rcases hm.touch ht with ⟨hpl, hpf⟩ | ⟨hold, hne⟩
    · refine ⟨p, hpl, ?_⟩
      rwa [hp]
    · obtain ⟨q, hql, hqf⟩ := h.touched hold
      have hqp : q ≠ p := by
        rintro rfl
        exact hne hql
      refine ⟨q, (hm.lock q hqp).2 hql, ?_⟩
      rwa [hq q hqp]

variable (h : Held s)
include h

theorem Held.move (hbuf : t.buf = update s.buf i b) (hpc : t.pc = update s.pc p c)
    (htouched : ∀ j, j ≠ i → t.touched j = s.touched j) (hs : ∀ j, j ≠ i → (s.pc p).buffer ≠ some j)
    (hc : ∀ j, j ≠ i → c.buffer ≠ some j) (hm : Handles s t i p c b) : Held t := by
  intro j
  by_cases hj : j = i
  · subst j
    have hself : t.buf i = b := by rw [hbuf, update_self]
    exact (h i).move hself hpc hm
  · refine (h j).frame ?_ (htouched j hj) fun q => ?_
    · rw [hbuf, update_of_ne hj]
    · rw [hpc]
      by_cases hqp : q = p
      · rw [hqp, update_self]
        exact .inr ⟨hc j hj, hs j hj⟩
      · exact .inl (update_of_ne hqp ..)

theorem Held.bump (hdev : dev ≠ 0) (hp : s.pc p = .idle) (hi : s.holds dev blockno i = true) :
    Held ((s.setBuf i fun b => { b with refcnt := b.refcnt + 1 }).goto p
      (.waiting dev blockno i)) := by
  obtain ⟨hidev, hiblockno⟩ : (s.buf i).dev = dev ∧ (s.buf i).blockno = blockno := by
    simpa [State.holds] using hi
  have hfetch : ¬ (s.pc p).fetches i := by simp [hp]
  refine h.move rfl rfl (fun _ _ => rfl) ?_ ?_ ⟨?_, ?_, fun _ _ => ⟨rfl, rfl⟩,
    fun _ _ => Iff.rfl, fun _ _ _ hvalid => hvalid, False.elim, ?_, ?_⟩
  · simp [hp]
  · simp [eq_comm]
  · simp only [hp, Pc.refers, if_true, if_false]
  · intro d n hread
    obtain ⟨rfl, rfl⟩ : dev = d ∧ blockno = n := by simpa [Pc.reads] using hread
    exact ⟨hdev, hidev, hiblockno⟩
  · exact fun hlock _ => (h i).usable p hlock hfetch
  · exact fun ht => touched_cases s ht p id

theorem Held.recycle (hdev : dev ≠ 0) (hp : s.pc p = .idle) (hi : (s.buf i).refcnt = 0) :
    Held ((s.setBuf i fun b =>
      { b with dev := dev, blockno := blockno, valid := false, dirty := false,
               refcnt := 1 }).goto p (.waiting dev blockno i)) := by
  obtain ⟨hlock, hfree⟩ := (h i).free hi
  refine h.move rfl rfl (fun _ _ => rfl) ?_ ?_ ⟨?_, ?_, fun q hq => absurd hq (hfree q),
    fun _ _ => Iff.rfl, ?_, False.elim, ?_, ?_⟩
  · simp [hp]
  · simp [eq_comm]
  · simp only [hp, hi, Pc.refers, if_true, if_false]
  · intro d n hread
    obtain ⟨rfl, rfl⟩ : dev = d ∧ blockno = n := by simpa [Pc.reads] using hread
    exact ⟨hdev, rfl, rfl⟩
  · simp [hlock]
  · simp [hlock]
  · exact fun ht => touched_cases s ht p id

theorem Held.acquiresleep (hp : s.pc p = .waiting dev blockno i) (hi : (s.buf i).lock = none) :
    Held ((s.setBuf i fun b => { b with lock := some p }).goto p (.locked dev blockno i)) := by
  refine h.move rfl rfl (fun _ _ => rfl) ?_ ?_ ⟨?_, ?_, fun _ _ => ⟨rfl, rfl⟩, ?_, ?_,
    fun _ => rfl, ?_, ?_⟩
  · simp [hp, eq_comm]
  · simp [eq_comm]
  · simp [hp, hi]
  · intro d n hread
    obtain ⟨rfl, rfl⟩ : dev = d ∧ blockno = n := by simpa [Pc.reads] using hread
    exact (h i).asked p dev blockno (.inl hp)
  · intro q hq
    simp [hi, hq.symm]
  · intro q hq hlock
    exact absurd (Option.some.inj hlock).symm hq
  · simp
  · intro ht
    exact .inr ⟨ht, by simp [hi]⟩

theorem Held.bread (hp : s.pc p = .locked dev blockno i) {b : Buf P}
    (hbuf : t.buf = update s.buf i b) (hpc : t.pc = s.pc) (htouched : t.touched = s.touched)
    (hdev : b.dev = (s.buf i).dev) (hblockno : b.blockno = (s.buf i).blockno)
    (hlock : b.lock = (s.buf i).lock) (hrefcnt : b.refcnt = (s.buf i).refcnt)
    (hvalid : b.valid = true) : Held (t.goto p .idle) := by
  have hpc' : (t.goto p .idle).pc = update s.pc p .idle := by rw [← hpc]; rfl
  refine h.move hbuf hpc' (fun j _ => congrFun htouched j) ?_ ?_ ⟨?_, ?_,
    fun _ _ => ⟨hdev, hblockno⟩, ?_, ?_, False.elim, ?_, ?_⟩
  · simp [hp, eq_comm]
  · simp
  · rw [hp, hrefcnt, hlock]
    rfl
  · simp [Pc.reads]
  · intro q _
    rw [hlock]
  · exact fun _ _ _ _ => hvalid
  · exact fun _ _ => hvalid
  · intro ht
    rw [hlock]
    exact touched_cases s (congrFun htouched i ▸ ht) p id

theorem Held.use (hp : s.pc p = .idle) (hi : (s.buf i).lock = some p) {b : Buf P}
    (hbuf : t.buf = update s.buf i b) (hpc : t.pc = s.pc)
    (htouched : ∀ j, j ≠ i → t.touched j = s.touched j) (hdev : b.dev = (s.buf i).dev)
    (hblockno : b.blockno = (s.buf i).blockno) (hlock : b.lock = (s.buf i).lock)
    (hrefcnt : b.refcnt = (s.buf i).refcnt) (hvalid : b.valid = true) : Held t := by
  have hpc' : t.pc = update s.pc p .idle := by rw [hpc, ← hp, update_eq_self]
  refine h.move hbuf hpc' htouched ?_ ?_ ⟨?_, ?_, fun _ _ => ⟨hdev, hblockno⟩, ?_, ?_,
    False.elim, ?_, ?_⟩
  · simp [hp]
  · simp
  · rw [hp, hrefcnt, hlock]
  · simp [Pc.reads]
  · intro q _
    rw [hlock]
  · exact fun _ _ _ _ => hvalid
  · exact fun _ _ => hvalid
  · intro _
    exact .inl ⟨hlock.trans hi, id⟩

theorem Held.brelse (hp : s.pc p = .idle) (hi : (s.buf i).lock = some p)
    (htouched : s.touched i = false) :
    Held ((s.setBuf i fun b => { b with lock := none }).goto p (.released i)) := by
  refine h.move rfl rfl (fun _ _ => rfl) ?_ ?_ ⟨?_, ?_, fun _ _ => ⟨rfl, rfl⟩, ?_, ?_,
    False.elim, ?_, ?_⟩
  · simp [hp]
  · simp [eq_comm]
  · simp [hp, hi]
  · simp [Pc.reads]
  · intro q hq
    simp [hi, hq.symm]
  · simp
  · simp
  · simp [htouched]

theorem Held.unref (hp : s.pc p = .released i) : Held ((s.unref i).goto p .idle) := by
  have hpos := (h i).refcnt_pos (by rw [hp]; rfl)
  have hfetch : ¬ (s.pc p).fetches i := by simp [hp]
  refine h.move (s.unref_buf i) (by rw [State.goto, State.unref_pc]) (fun _ _ => by simp)
    ?_ ?_ ⟨?_, ?_, fun _ _ => ⟨rfl, rfl⟩, fun _ _ => Iff.rfl, fun _ _ _ hvalid => hvalid,
    False.elim, ?_, ?_⟩
  · simp [hp, eq_comm]
  · simp
  · simp only [hp, Pc.refers, if_true, reduceIte]
    omega
  · simp [Pc.reads]
  · exact fun hlock _ => (h i).usable p hlock hfetch
  · intro ht
    exact touched_cases s (by simpa using ht) p id

end Held

end Xv6.BufferCache
