import Xv6.Storage.Coherence
import Xv6.Storage.Head

/-!
# The block writes of commit and recovery

Each round of `write_log` and of `install_trans` issues one block write, and
each call of `write_head` issues one more. The specifications below give the
writes in order and say what a routine that stops early has issued so far, so
that commit and recovery refine the abstract redo log of `RedoLog.Layout`.

On a quiet cache these routines stop only at a block past the end of the disk.
-/

namespace Xv6

open RedoLog Routine Function List LogHeader

variable {s : Storage} {v : ℕ → Block} {E : Halt → Storage → Prop} {P : Unit → Storage → Prop}
  {log : Log} {a b : ℕ}

/-- From `s` to `t` the block writes `p` were issued, in this order. -/
structure Storage.Wrote (s t : Storage) (p : List (ℕ × Block)) : Prop where
  image : t.image = s.image
  writes : t.writes = s.writes ++ p
  diskSize : t.diskSize = s.diskSize

theorem Storage.SameStore.wrote {t : Storage} (h : s.SameStore t) : s.Wrote t [] :=
  ⟨h.image, by rw [h.writes, append_nil], h.diskSize⟩

theorem Storage.Wrote.trans {t u : Storage} {p q : List (ℕ × Block)} (h : s.Wrote t p)
    (h' : t.Wrote u q) : s.Wrote u (p ++ q) :=
  ⟨h'.image.trans h.image, by rw [h'.writes, h.writes, append_assoc],
    h'.diskSize.trans h.diskSize⟩

theorem Storage.Wrote.disk {t : Storage} {p : List (ℕ × Block)} (h : s.Wrote t p) :
    t.disk = applyWrites s.disk p := by
  rw [Storage.disk, h.image, h.writes, applyWrites_append, Storage.disk]

/-- Two different blocks are read; both buffers are held afterwards. -/
theorem wp_twoReads (h : s.Coherent v) (hab : a ≠ b) {P : Fin nBuf → Fin nBuf → Storage → Prop}
    (hP : ∀ x y t, t.Coherent v → s.SameStore t → t.Holds x a → t.Holds y b → x ≠ y →
      (s.Quiet ∅ → t.Quiet {x, y}) → P x y t)
    (hE : ∀ e t, s.SameStore t → (s.Quiet ∅ → s.diskSize ≤ a ∨ s.diskSize ≤ b) → E e t) :
    wp (bread rootDev a)
      (fun x t => wp (bread rootDev b) (fun y u => P x y u) E t) E s := by
  refine wp_mono (bread_spec h a) ?_ ?_
  · rintro x t ⟨hct, hst, hx, -, hqt⟩
    refine wp_mono (bread_spec hct b) ?_ ?_
    · rintro y u ⟨hcu, hsu, hy, hk, hqu⟩
      have hxu := hk x a hx
      have hxy : x ≠ y := by
        rintro rfl
        exact hab (hxu.blockno.symm.trans hy.blockno)
      refine hP x y u hcu (hst.trans hsu) hxu hy hxy fun hq => ?_
      have hq' := (hqu _ (hqt ∅ hq).2).2
      rwa [insert_empty_eq, Finset.pair_comm] at hq'
    · rintro e u ⟨hsu, hstop⟩
      refine hE e u (hst.trans hsu) fun hq => .inr ?_
      rw [← hst.diskSize]
      refine hstop _ (hqt ∅ hq).2 ?_ ?_
      · rw [insert_empty_eq, Finset.card_singleton]
        decide
      · intro j hj
        rw [insert_empty_eq, Finset.mem_singleton] at hj
        rw [hj, hx.blockno]
        exact hab
  · rintro e t ⟨hst, hstop⟩
    refine hE e t hst fun hq => .inl (hstop ∅ hq ?_ ?_)
    · decide
    · intro j hj
      exact absurd hj (Finset.notMem_empty j)

theorem wp_releaseBoth (h : s.Coherent v) {x y : Fin nBuf} (hx : s.Holds x a) (hy : s.Holds y b)
    (hxy : x ≠ y) (hP : ∀ u, u.Coherent v → s.SameStore u → (s.Quiet {x, y} → u.Quiet ∅) → P () u) :
    wp (brelse x) (fun _ t => wp (brelse y) P E t) E s := by
  refine wp_mono_ok (brelse_spec h hx) ?_
  rintro - t ⟨hct, hst, hkt, hqt⟩
  refine wp_mono_ok (brelse_spec hct (hkt y b hxy.symm hy)) ?_
  rintro - u ⟨hcu, hsu, -, hqu⟩
  refine hP u hcu (hst.trans hsu) fun hq => hqu ∅ (Finset.notMem_empty y) ?_
  exact hqt {y} (fun hm => hxy (Finset.mem_singleton.1 hm)) hq

theorem wp_copyHeld (h : s.Coherent v) {x y : Fin nBuf} (hx : s.Holds x a) (hy : s.Holds y b)
    (hP : ∀ t, t.Coherent (update v b (v a)) → s.Wrote t [(b, v a)] →
      t.log = s.log → s.KeepsHolds t → (∀ H, s.Quiet H → t.Quiet H) → P () t)
    (hE : ∀ e t, s.SameStore t → s.diskSize ≤ b → E e t) :
    wp (setData y (s.buf x).data) (fun _ t => wp (bwrite y) P E t) E s := by
  have hdata : (s.buf x).data = v a := by
    rw [h.cached x hx.dev hx.valid, hx.blockno]
  rw [setData, wp_update, hdata]
  refine wp_mono (bwrite_spec h hy (v a)) ?_ fun e t ht => hE e t ht.1 ht.2
  rintro - t ⟨hct, hst, hkt, hqt⟩
  exact hP t hct ⟨hst.image, hst.writes, hst.diskSize⟩ hst.log hkt hqt

def Copies (s : Storage) (v : ℕ → Block) (a b : ℕ) (t : Storage) : Prop :=
  t.Coherent (update v b (v a)) ∧ s.Wrote t [(b, v a)] ∧ t.log = s.log ∧
    (s.Quiet ∅ → t.Quiet ∅)

/-- What a round that stops has done: nothing, and a quiet cache excludes it
unless one of the two blocks is past the end of the disk. -/
def StopsAt (s : Storage) (a b : ℕ) (t : Storage) : Prop :=
  s.Wrote t [] ∧ (s.Quiet ∅ → s.diskSize ≤ a ∨ s.diskSize ≤ b)

/-- The end of both rounds: the data go from one held buffer to the other, which is written. -/
theorem wp_endRound {t : Storage} {x y : Fin nBuf} (hst : s.SameStore t) (hct : t.Coherent v)
    (hx : t.Holds x a) (hy : t.Holds y b) (hxy : x ≠ y) (hqt : s.Quiet ∅ → t.Quiet {x, y}) :
    wp (do setData y (t.buf x).data; bwrite y; brelse x; brelse y)
      (fun _ => Copies s v a b) (fun _ => StopsAt s a b) t := by
  simp only [wp_bind]
  refine wp_copyHeld hct hx hy ?_ ?_
  · intro u hcu hwu hlog hku hqu
    refine wp_releaseBoth hcu (hku x _ hx) (hku y _ hy) hxy ?_
    intro w hcw hsw hqw
    refine ⟨hcw, ?_, hsw.log.trans (hlog.trans hst.log), fun hq => hqw (hqu _ (hqt hq))⟩
    have hw := (hst.wrote.trans hwu).trans hsw.wrote
    rwa [nil_append, append_nil] at hw
  · intro _ u hsu hsize
    refine ⟨(hst.trans hsu).wrote, fun _ => .inr ?_⟩
    rwa [hst.diskSize] at hsize

section

variable {k : ℕ} (h : s.Coherent v) (hdev : log.dev = rootDev) (hk : k < logSize)
  (hne : log.start + k + 1 ≠ (log.lh.blockAt k).toNat)
include h hdev hk hne

theorem installRound_spec :
    wp (installRound log k)
      (fun _ => Copies s v (log.start + k + 1) (log.lh.blockAt k).toNat)
      (fun _ => StopsAt s (log.start + k + 1) (log.lh.blockAt k).toNat) s := by
  simp only [installRound, hdev, wp_bind, home, if_pos hk, wp_pure, wp_look, id_eq]
  refine wp_twoReads h hne ?_ fun _ t hs hq => ⟨hs.wrote, hq⟩
  intro x y t hct hst hx hy hxy hqt
  simpa only [wp_bind] using wp_endRound hst hct hx hy hxy hqt

theorem writeRound_spec :
    wp (writeRound log k)
      (fun _ => Copies s v (log.lh.blockAt k).toNat (log.start + k + 1))
      (fun _ => StopsAt s (log.lh.blockAt k).toNat (log.start + k + 1)) s := by
  simp only [writeRound, hdev, wp_bind, home, if_pos hk, wp_pure, wp_look, id_eq]
  refine wp_twoReads h hne ?_ fun _ t hs hq => ⟨hs.wrote, fun h => (hq h).symm⟩
  intro x y t hct hst hx hy hxy hqt
  rw [Finset.pair_comm] at hqt
  simpa only [wp_bind] using wp_endRound hst hct hy hx hxy.symm hqt

end

def copyWrites (src dst : ℕ → ℕ) (v : ℕ → Block) (n : ℕ) : List (ℕ × Block) :=
  (List.range n).map fun k => (dst k, v (src k))

theorem copyWrites_succ (src dst : ℕ → ℕ) (v : ℕ → Block) (n : ℕ) :
    copyWrites src dst v (n + 1) = copyWrites src dst v n ++ [(dst n, v (src n))] := by
  simp [copyWrites, range_succ]

theorem copyWrites_prefix (src dst : ℕ → ℕ) (v : ℕ → Block) {k n : ℕ} (h : k ≤ n) :
    copyWrites src dst v k <+: copyWrites src dst v n := by
  induction n with
  | zero =>
    rw [Nat.le_zero.1 h]
  | succ n ih =>
    rcases Nat.lt_or_ge n k with hnk | hkn
    · rw [show k = n + 1 by omega]
    · rw [copyWrites_succ]
      exact (ih hkn).trans (prefix_append _ _)

theorem applyWrites_copyWrites (src dst : ℕ → ℕ) (v : ℕ → Block) {k a : ℕ}
    (ha : ∀ j < k, a ≠ dst j) : applyWrites v (copyWrites src dst v k) a = v a := by
  apply applyWrites_of_notMem
  simp only [copyWrites, map_map, mem_map, mem_range, comp_apply,
    not_exists, not_and]
  intro j hj hja
  exact ha j hj hja.symm

/-- What `n` copying rounds do. -/
def CopiesAll (s : Storage) (v : ℕ → Block) (src dst : ℕ → ℕ) (n : ℕ) (t : Storage) : Prop :=
  t.Coherent (applyWrites v (copyWrites src dst v n)) ∧ s.Wrote t (copyWrites src dst v n) ∧
    t.log = s.log ∧ (s.Quiet ∅ → t.Quiet ∅)

def StopsWithin (s : Storage) (v : ℕ → Block) (src dst : ℕ → ℕ) (n : ℕ) (t : Storage) : Prop :=
  ∃ p, p <+: copyWrites src dst v n ∧ s.Wrote t p ∧
    (s.Quiet ∅ → ∃ k < n, s.diskSize ≤ src k ∨ s.diskSize ≤ dst k)

theorem wp_copyLoop (h : s.Coherent v) {n : ℕ} {src dst : ℕ → ℕ} {body : ℕ → StorageM Unit}
    (hsep : ∀ i < n, ∀ j < n, src i ≠ dst j) (hbody : ∀ k < n, ∀ t w, t.Coherent w → t.log = s.log →
      wp (body k) (fun _ => Copies t w (src k) (dst k)) (fun _ => StopsAt t (src k) (dst k)) t) :
    wp (forRange n body) (fun _ => CopiesAll s v src dst n)
      (fun _ => StopsWithin s v src dst n) s := by
  refine wp_forRange (I := fun k => CopiesAll s v src dst k) ?_ ?_
  · exact ⟨h, ⟨rfl, (append_nil _).symm, rfl⟩, rfl, fun hq => hq⟩
  · rintro k t hk ⟨hc, hw, hlog, hq⟩
    refine wp_mono (hbody k hk t _ hc hlog) ?_ ?_
    · rintro - u ⟨hcu, hwu, hlogu, hqu⟩
      rw [applyWrites_copyWrites src dst v fun j hj => hsep k hk j (by omega)] at hcu hwu
      refine ⟨?_, ?_, hlogu.trans hlog, fun h => hqu (hq h)⟩
      · rw [copyWrites_succ, applyWrites_append]
        exact hcu
      · rw [copyWrites_succ]
        exact hw.trans hwu
    · rintro e u ⟨hwu, hqu⟩
      refine ⟨_, copyWrites_prefix src dst v hk.le, ?_, fun h => ⟨k, hk, ?_⟩⟩
      · have := hw.trans hwu
        rwa [append_nil] at this
      · rw [← hw.diskSize]
        exact hqu (hq h)

def Storage.setLog (s : Storage) (log : Log) : Storage := { s with log := log }

theorem Storage.Coherent.setLog (h : s.Coherent v) (log : Log) : (s.setLog log).Coherent v :=
  h.of_contents h.listed rfl fun _ => rfl

theorem Storage.Holds.setLog {i : Fin nBuf} {b : ℕ} (h : s.Holds i b) (log : Log) :
    (s.setLog log).Holds i b :=
  h.of_buf_eq rfl

theorem Storage.Quiet.setLog {H : Finset (Fin nBuf)} (h : s.Quiet H) (log : Log) :
    (s.setLog log).Quiet H :=
  ⟨h.clean, h.inUse, h.idle⟩

theorem wp_oneRead (h : s.Coherent v) (a : ℕ) {P : Fin nBuf → Storage → Prop}
    (hP : ∀ x t, t.Coherent v → s.SameStore t → t.Holds x a →
      (s.Quiet ∅ → t.Quiet {x}) → P x t)
    (hE : ∀ e t, s.SameStore t → (s.Quiet ∅ → s.diskSize ≤ a) → E e t) :
    wp (bread rootDev a) P E s := by
  refine wp_mono (bread_spec h a) ?_ ?_
  · rintro x t ⟨hct, hst, hx, -, hqt⟩
    refine hP x t hct hst hx fun hq => ?_
    have hq' := (hqt ∅ hq).2
    rwa [insert_empty_eq] at hq'
  · rintro e t ⟨hst, hstop⟩
    refine hE e t hst fun hq => hstop ∅ hq ?_ ?_
    · decide
    · intro j hj
      exact absurd hj (Finset.notMem_empty j)

theorem wp_releaseOne (h : s.Coherent v) {x : Fin nBuf} {a : ℕ} (hx : s.Holds x a)
    (hP : ∀ u, u.Coherent v → s.SameStore u → (s.Quiet {x} → u.Quiet ∅) → P () u) :
    wp (brelse x) P E s := by
  refine wp_mono_ok (brelse_spec h hx) ?_
  rintro - u ⟨hcu, hsu, -, hqu⟩
  refine hP u hcu hsu fun hq => hqu ∅ (Finset.notMem_empty x) ?_
  rwa [insert_empty_eq]

/-- `write_head` issues one write: the header block filled in from memory. -/
theorem writeHead_spec (h : s.Coherent v) (hdev : s.log.dev = rootDev)
    (hcount : s.log.lh.count ≤ logSize) :
    wp writeHead
      (fun _ t =>
        t.Coherent (update v s.log.start (encodeHead s.log.lh (v s.log.start))) ∧
        s.Wrote t [(s.log.start, encodeHead s.log.lh (v s.log.start))] ∧ t.log = s.log ∧
        (s.Quiet ∅ → t.Quiet ∅))
      (fun _ t => s.Wrote t [] ∧ (s.Quiet ∅ → s.diskSize ≤ s.log.start)) s := by
  simp only [writeHead, hdev, wp_bind, wp_look, id_eq, wp_ite, wp_stop]
  refine wp_oneRead h _ ?_ fun _ t hs hq => ⟨hs.wrote, hq⟩
  intro x t hct hst hx hqt
  have hdata : (t.buf x).data = v s.log.start := by
    rw [hct.cached x hx.dev hx.valid, hx.blockno]
  refine ⟨fun hlt => absurd hlt (Nat.not_lt.2 hcount), fun _ => ?_⟩
  rw [setData, wp_update, hdata]
  refine wp_mono (bwrite_spec hct hx _) ?_ ?_
  · rintro - u ⟨hcu, hsu, hku, hqu⟩
    refine wp_releaseOne hcu (hku x _ hx) ?_
    intro w hcw hsw hqw
    refine ⟨hcw, ?_, hsw.log.trans (hsu.log.trans hst.log), fun hq => hqw (hqu _ (hqt hq))⟩
    have hu : t.Wrote u [(s.log.start, encodeHead s.log.lh (v s.log.start))] :=
      ⟨hsu.image, hsu.writes, hsu.diskSize⟩
    have hw := (hst.wrote.trans hu).trans hsw.wrote
    rwa [nil_append, append_nil] at hw
  · rintro _ u ⟨hsu, hsize⟩
    refine ⟨(hst.trans hsu).wrote, fun _ => ?_⟩
    rwa [hst.diskSize] at hsize

/-- `read_head` copies the header from the header block, if it fits. -/
theorem readHead_spec (h : s.Coherent v) (hdev : s.log.dev = rootDev) :
    wp readHead
      (fun _ t => t.Coherent v ∧ s.Wrote t [] ∧ headCount (v s.log.start) ≤ logSize ∧
        t.log = { s.log with lh := decodeHead (v s.log.start) s.log.lh } ∧
        (s.Quiet ∅ → t.Quiet ∅))
      (fun _ t => s.Wrote t [] ∧ (s.Quiet ∅ → headCount (v s.log.start) ≤ logSize →
        s.diskSize ≤ s.log.start)) s := by
  simp only [readHead, hdev, wp_bind, wp_look, id_eq, wp_ite, wp_stop, wp_update]
  refine wp_oneRead h _ ?_ fun _ t hs hq => ⟨hs.wrote, fun h _ => hq h⟩
  intro x t hct hst hx hqt
  have hdata : (t.buf x).data = v s.log.start := by
    rw [hct.cached x hx.dev hx.valid, hx.blockno]
  rw [hdata]
  refine ⟨fun hlt => ⟨hst.wrote, fun _ hle => absurd hlt (Nat.not_lt.2 hle)⟩, fun hle => ?_⟩
  refine wp_releaseOne (hct.setLog _) (hx.setLog _) ?_
  intro u hcu hsu hqu
  refine ⟨hcu, ?_, Nat.not_lt.1 hle, ?_, fun hq => hqu ((hqt hq).setLog _)⟩
  · exact ⟨hsu.image.trans hst.image, by
      rw [hsu.writes, append_nil]
      exact hst.writes, hsu.diskSize.trans hst.diskSize⟩
  · rw [hsu.log]
    simp only [Storage.setLog, hst.log, hdev]

def LogHeader.Clear (h : LogHeader) (start : ℕ) : Prop :=
  ∀ a ∈ h.homes, a < start ∨ start + h.count < a

theorem LogHeader.Clear.blockAt {h : LogHeader} {start : ℕ} (hh : h.Clear start) {k : ℕ}
    (hk : k < h.count) : (h.blockAt k).toNat < start ∨ start + h.count < (h.blockAt k).toNat :=
  hh _ (mem_map.2 ⟨k, mem_range.2 hk, rfl⟩)

def LogHeader.homeNo (h : LogHeader) (k : ℕ) : ℕ := (h.blockAt k).toNat

def Log.slotNo (log : Log) (k : ℕ) : ℕ := log.start + k + 1

section

variable (h : s.Coherent v) (hdev : s.log.dev = rootDev) (hcount : s.log.lh.count ≤ logSize)
  (hclear : s.log.lh.Clear s.log.start)
include h hdev hcount hclear

theorem installTrans_spec :
    wp installTrans (fun _ => CopiesAll s v s.log.slotNo s.log.lh.homeNo s.log.lh.count)
      (fun _ => StopsWithin s v s.log.slotNo s.log.lh.homeNo s.log.lh.count) s := by
  refine wp_copyLoop h ?_ ?_
  · intro i hi j hj
    have := hclear.blockAt hj
    simp only [Log.slotNo, homeNo]
    omega
  · intro k hk t w hct _
    have hne : s.log.start + k + 1 ≠ (s.log.lh.blockAt k).toNat := by
      have := hclear.blockAt hk
      omega
    exact installRound_spec hct hdev (by omega) hne

theorem writeLog_spec :
    wp writeLog (fun _ => CopiesAll s v s.log.lh.homeNo s.log.slotNo s.log.lh.count)
      (fun _ => StopsWithin s v s.log.lh.homeNo s.log.slotNo s.log.lh.count) s := by
  refine wp_copyLoop h ?_ ?_
  · intro i hi j hj
    have := hclear.blockAt hi
    simp only [Log.slotNo, homeNo]
    omega
  · intro k hk t w hct _
    have hne : s.log.start + k + 1 ≠ (s.log.lh.blockAt k).toNat := by
      have := hclear.blockAt hk
      omega
    exact writeRound_spec hct hdev (by omega) hne

end

def LogHeader.transaction (h : LogHeader) (v : ℕ → Block) : List (ℕ × Block) :=
  h.homes.map fun a => (a, v a)

theorem LogHeader.transaction_keys (h : LogHeader) (v : ℕ → Block) :
    (h.transaction v).map Prod.fst = h.homes := by
  simp [transaction, comp_def]

theorem copyWrites_slots (log : Log) (v : ℕ → Block) (hsize : 0 < log.size) :
    copyWrites log.lh.homeNo log.slotNo v log.lh.count =
      (Log.layout log.start log.size hsize).slotWrites (log.lh.transaction v) := by
  apply ext_getElem
  · simp [copyWrites, Layout.slotWrites, transaction]
  · simp [copyWrites, Layout.slotWrites, transaction, homeNo, Log.slotNo,
      Log.layout]

theorem copyWrites_homes (log : Log) (v : ℕ → Block) :
    copyWrites log.slotNo log.lh.homeNo v log.lh.count =
      log.lh.homes.mapIdx fun i a => (a, v (log.start + i + 1)) := by
  apply ext_getElem
  · simp [copyWrites]
  · simp [copyWrites, homeNo, Log.slotNo]

theorem LogHeader.Clear.applyWrites_start (hclear : log.lh.Clear log.start) (v : ℕ → Block) :
    applyWrites v (copyWrites log.slotNo log.lh.homeNo v log.lh.count) log.start =
      v log.start := by
  apply applyWrites_copyWrites
  intro j hj
  have := hclear.blockAt hj
  simp only [homeNo]
  omega

/-- The storage after `install_trans; log.lh.n = 0; write_head`, which end both
commit and recovery. -/
theorem finish_spec (h : s.Coherent v) (hdev : s.log.dev = rootDev)
    (hcount : s.log.lh.count ≤ logSize) (hclear : s.log.lh.Clear s.log.start) :
    wp (do installTrans; clearHead; writeHead)
      (fun _ t => s.Wrote t
        (s.log.lh.homes.mapIdx (fun i a => (a, v (s.log.start + i + 1))) ++
          [(s.log.start, setWord (v s.log.start) 0 0)]))
      (fun _ t => ∃ p, p <+: s.log.lh.homes.mapIdx (fun i a => (a, v (s.log.start + i + 1))) ++
          [(s.log.start, setWord (v s.log.start) 0 0)] ∧ s.Wrote t p ∧
        (s.Quiet ∅ → s.diskSize ≤ s.log.start ∨ ∃ k < s.log.lh.count,
          s.diskSize ≤ s.log.slotNo k ∨ s.diskSize ≤ s.log.lh.homeNo k)) s := by
  rw [← copyWrites_homes]
  simp only [wp_bind]
  refine wp_mono (installTrans_spec h hdev hcount hclear) ?_ ?_
  · rintro - t ⟨hct, hwt, hlog, hqt⟩
    change wp writeHead _ _ (t.setLog _)
    have hhead := writeHead_spec (hct.setLog { t.log with lh := { t.log.lh with n := 0 } })
      (by rw [Storage.setLog, hlog]; exact hdev) (Nat.zero_le _)
    simp only [Storage.setLog, hlog, encodeHead_clear, hclear.applyWrites_start v] at hhead
    have hset : s.Wrote (t.setLog { t.log with lh := { t.log.lh with n := 0 } })
        (copyWrites s.log.slotNo s.log.lh.homeNo v s.log.lh.count) :=
      ⟨hwt.image, hwt.writes, hwt.diskSize⟩
    simp only [Storage.setLog, hlog] at hset ⊢
    refine wp_mono hhead ?_ ?_
    · rintro - u ⟨-, hwu, -, -⟩
      exact hset.trans hwu
    · rintro _ u ⟨hwu, hqu⟩
      refine ⟨_, prefix_append _ _, ?_, fun hq => .inl ?_⟩
      · have hw := hset.trans hwu
        rwa [append_nil] at hw
      · rw [← hwt.diskSize]
        exact hqu ((hqt hq).setLog _)
  · rintro _ t ⟨p, hp, hwt, hqt⟩
    exact ⟨p, hp.trans (prefix_append _ _), hwt, fun hq => .inr (hqt hq)⟩

end Xv6
