import Xv6.Storage.Commit

/-!
# Crash atomicity of the log

A crash keeps the disk as some prefix of the writes issued has left it, and
forgets everything in memory. `Boots` describes a kernel started again on a
disk, just before `recover_from_log`: nothing is dirty or in use, and what is
cached agrees with the disk. `Recoveries` chains any number of recoveries that
are themselves cut by a crash.

Commit and recovery issue the writes of the redo log `Log.layout`, so the
invariant `RedoLog.Layout.Recoverable` holds at every crash point.
-/

namespace Xv6

open RedoLog Routine Function List LogHeader

variable {s : Storage} {v : ℕ → Block} {d : ℕ → Block} {k : ℕ} {hsize : 0 < s.log.size}

def Log.region (log : Log) : Set ℕ := {b | log.start ≤ b ∧ b < log.start + log.size}

/-- A transaction that is ready to be committed: `v` is the contents of the
blocks in the cache, no transaction is committed on disk, and the blocks logged
are distinct, outside the log, and fit both the header and the log. -/
structure Storage.ReadyToCommit (s : Storage) (v : ℕ → Block) : Prop where
  coherent : s.Coherent v
  dev : s.log.dev = rootDev
  head : wordAt (s.disk s.log.start) 0 = 0
  nodup : s.log.lh.homes.Nodup
  outside : ∀ a ∈ s.log.lh.homes, a ∉ s.log.region
  fitsHead : s.log.lh.count ≤ logSize
  fitsLog : s.log.lh.count ≤ s.log.size - 1
  size : 0 < s.log.size

/-- A kernel started on the disk `d` with the log placed as in `log`. -/
structure Boots (log : Log) (diskSize : ℕ) (d : ℕ → Block) (r : Storage) : Prop where
  coherent : r.Coherent d
  quiet : r.Quiet ∅
  disk : r.disk = d
  start : r.log.start = log.start
  size : r.log.size = log.size
  dev : r.log.dev = rootDev
  diskSize : r.diskSize = diskSize

/-- From disk `d`, any number of recoveries that were cut by a crash. -/
inductive Recoveries (log : Log) (diskSize : ℕ) (d : ℕ → Block) : (ℕ → Block) → Prop
  | none : Recoveries log diskSize d d
  | crash {d' : ℕ → Block} {r : Storage} {k : ℕ} :
      Recoveries log diskSize d d' → Boots log diskSize d' r → r.writes.length ≤ k →
        Recoveries log diskSize d ((recoverFromLog r).2.diskAfter k)

theorem headHomes_eq_nil {d : Block} (h : wordAt d 0 = 0) : headHomes d = [] := by
  simp [headHomes, headCount, h]

theorem Storage.Wrote.diskAfter {t : Storage} {p : List (ℕ × Block)} (h : s.Wrote t p)
    (hk : s.writes.length ≤ k) : ∃ q, q <+: p ∧ t.diskAfter k = applyWrites s.disk q := by
  refine ⟨p.take (k - s.writes.length), take_prefix _ _, ?_⟩
  rw [Storage.diskAfter, h.image, h.writes, take_append, take_of_length_le hk,
    applyWrites_append, Storage.disk]

def Log.redo (log : Log) (hsize : 0 < log.size) : Layout ℕ Block :=
  Log.layout log.start log.size hsize

theorem recoverFromLog_spec {log : Log} (hsize : 0 < log.size) {diskSize : ℕ}
    (h : Boots log diskSize d s) (hclear : ∀ a ∈ headHomes (d log.start), a < log.start ∨
      log.start + headCount (d log.start) < a) :
    wp recoverFromLog
      (fun _ t => s.Wrote t ((log.redo hsize).recoverWrites d))
      (fun _ t => ∃ p, p <+: (log.redo hsize).recoverWrites d ∧ s.Wrote t p ∧
        (headCount (d log.start) ≤ logSize → diskSize ≤ log.start ∨
          ∃ k < headCount (d log.start), diskSize ≤ log.start + k + 1 ∨
            ∃ a ∈ headHomes (d log.start), diskSize ≤ a)) s := by
  rw [recoverFromLog, wp_bind]
  refine wp_mono (readHead_spec h.coherent h.dev) ?_ ?_
  · rintro - t ⟨hct, hwt, hle, hlog, hqt⟩
    rw [h.start] at hle hlog
    have hhomes := homes_decodeHead (d log.start) s.log.lh hle
    have hcl : t.log.lh.Clear t.log.start := by
      rw [hlog, Clear, hhomes, count_decodeHead, h.start]
      exact hclear
    have hfin := finish_spec hct (by rw [hlog]; exact h.dev)
      (by rw [hlog, count_decodeHead]; exact hle) hcl
    simp only [hlog, hhomes, h.start, count_decodeHead] at hfin
    refine wp_mono hfin ?_ ?_
    · intro _ u hwu
      have hw := hwt.trans hwu
      rwa [nil_append] at hw
    · rintro _ u ⟨p, hp, hwu, hqu⟩
      refine ⟨p, hp, ?_, fun _ => ?_⟩
      · have hw := hwt.trans hwu
        rwa [nil_append] at hw
      · rw [hwt.diskSize, h.diskSize] at hqu
        rcases hqu (hqt h.quiet) with hstart | ⟨k, hk, hslot | hhome⟩
        · exact .inl hstart
        · refine .inr ⟨k, hk, .inl ?_⟩
          simpa [Log.slotNo, h.start] using hslot
        · refine .inr ⟨k, hk, .inr ⟨_, ?_, hhome⟩⟩
          rw [← hhomes]
          exact mem_map.2 ⟨k, mem_range.2 hk, rfl⟩
  · rintro _ t ⟨hwt, hqt⟩
    refine ⟨[], nil_prefix, hwt, fun hle => .inl ?_⟩
    rw [← h.diskSize, ← h.start]
    rw [h.start] at hqt
    rw [h.start]
    exact hqt h.quiet hle

variable (h : s.ReadyToCommit v)

include h in
theorem Storage.ReadyToCommit.clear : s.log.lh.Clear s.log.start := by
  intro a ha
  have hout := h.outside a ha
  have hfit := h.fitsLog
  have hsize := h.size
  simp only [Log.region, Set.mem_ofPred_eq, not_and_or, not_le, not_lt] at hout
  omega

include h in
theorem Storage.ReadyToCommit.fits : (s.log.redo h.size).Fits (s.log.lh.transaction v) := by
  have hlen : (s.log.lh.transaction v).length = s.log.lh.count := by
    simp [transaction]
  have hfit := h.fitsLog
  refine ⟨?_, ?_, ?_, ?_, ?_⟩
  · rw [transaction_keys]
    exact h.nodup
  · rw [transaction_keys]
    exact h.outside
  · intro i hi
    refine ⟨?_, ?_⟩ <;> simp only [Log.redo, Log.layout] <;> omega
  · simp only [Log.redo, Log.layout]
    omega
  · intro i _ j _ hij
    simp only [Log.redo, Log.layout] at hij
    omega

def Storage.commitHead (s : Storage) (v : ℕ → Block) : Block :=
  encodeHead s.log.lh (v s.log.start)

def Storage.commitPlan (s : Storage) (v : ℕ → Block) (hsize : 0 < s.log.size) :
    List (ℕ × Block) :=
  (s.log.redo hsize).commitWrites (s.log.lh.transaction v) (s.commitHead v)
    (setWord (s.commitHead v) 0 0)

include h in
/-- After the slots and the header are written, the installing loop finds the
contents of the transaction in the slots. -/
theorem Storage.ReadyToCommit.install_eq :
    s.log.lh.homes.mapIdx (fun i a => (a, update (applyWrites v
        ((s.log.redo h.size).slotWrites (s.log.lh.transaction v))) s.log.start
          (s.commitHead v) (s.log.start + i + 1))) =
      s.log.lh.transaction v := by
  have hfits := h.fits
  apply ext_getElem
  · simp [transaction]
  · intro i h₁ h₂
    have hi : i < (s.log.lh.transaction v).length := h₂
    have hne : s.log.start + i + 1 ≠ s.log.start := by omega
    have hslot : applyWrites v ((s.log.redo h.size).slotWrites (s.log.lh.transaction v))
        (s.log.start + i + 1) = ((s.log.lh.transaction v).get ⟨i, hi⟩).2 :=
      applyWrites_of_mem v _ hfits.slotWrites_nodup
        (w := (s.log.start + i + 1, ((s.log.lh.transaction v).get ⟨i, hi⟩).2))
        (mem_mapIdx.2 ⟨i, hi, rfl⟩)
    rw [getElem_mapIdx, update_of_ne hne, hslot]
    simp [transaction]

include h in
theorem Storage.ReadyToCommit.slotWrites_start :
    applyWrites v ((s.log.redo h.size).slotWrites (s.log.lh.transaction v)) s.log.start =
      v s.log.start := by
  refine applyWrites_of_notMem _ _ fun hmem => ?_
  obtain ⟨w, hw, hstart⟩ := mem_map.1 hmem
  obtain ⟨i, hi, rfl⟩ := Layout.mem_slotWrites hw
  exact h.fits.slot_ne i hi hstart

include h in
/-- What `commit` does once the slots are written. -/
theorem commitTail_spec {t : Storage} (hct : t.Coherent
      (applyWrites v ((s.log.redo h.size).slotWrites (s.log.lh.transaction v))))
    (hlog : t.log = s.log) :
    wp (do writeHead; installTrans; clearHead; writeHead)
      (fun _ u => t.Wrote u ((s.log.start, s.commitHead v) ::
        (s.log.lh.transaction v ++ [(s.log.start, setWord (s.commitHead v) 0 0)])))
      (fun _ u => ∃ p, p <+: (s.log.start, s.commitHead v) ::
        (s.log.lh.transaction v ++ [(s.log.start, setWord (s.commitHead v) 0 0)]) ∧
          t.Wrote u p) t := by
  have hhead := writeHead_spec hct (by rw [hlog]; exact h.dev)
    (by rw [hlog]; exact h.fitsHead)
  rw [hlog, h.slotWrites_start] at hhead
  rw [wp_bind]
  refine wp_mono hhead ?_ ?_
  · rintro - u ⟨hcu, hwu, hlogu, -⟩
    have hfin := finish_spec hcu (by rw [hlogu]; exact h.dev)
      (by rw [hlogu]; exact h.fitsHead) (by rw [hlogu]; exact h.clear)
    have hinstall := h.install_eq
    simp only [Storage.commitHead] at hinstall ⊢
    rw [hlogu, hinstall, update_self] at hfin
    refine wp_mono hfin (fun _ w hw => hwu.trans hw) ?_
    rintro _ w ⟨p, hp, hw, -⟩
    exact ⟨_, (prefix_append_right_inj [_]).2 hp, hwu.trans hw⟩
  · rintro _ u ⟨hwu, -⟩
    exact ⟨[], nil_prefix, hwu⟩

include h in
theorem commit_spec :
    wp commit
      (fun _ t => s.Wrote t (if 0 < s.log.lh.count then s.commitPlan v h.size else []))
      (fun _ t => ∃ p, p <+: s.commitPlan v h.size ∧ s.Wrote t p) s := by
  rw [commit, wp_bind, wp_look, wp_ite]
  refine ⟨fun hn => ?_, fun hn => ?_⟩
  · have hpos : 0 < s.log.lh.count := by
      rw [LogHeader.count]
      omega
    rw [if_pos hpos, wp_bind]
    refine wp_mono (writeLog_spec h.coherent h.dev h.fitsHead h.clear) ?_ ?_
    · rintro - t ⟨hct, hwt, hlogt, -⟩
      rw [copyWrites_slots _ _ h.size] at hwt hct
      refine wp_mono (commitTail_spec h hct hlogt) (fun _ u hu => hwt.trans hu) ?_
      rintro _ u ⟨p, hp, hu⟩
      exact ⟨_, (prefix_append_right_inj _).2 hp, hwt.trans hu⟩
    · rintro _ t ⟨p, hp, hwt, -⟩
      rw [copyWrites_slots _ _ h.size] at hp
      exact ⟨p, hp.trans (prefix_append _ _), hwt⟩
  · have hzero : ¬ 0 < s.log.lh.count := by
      rw [LogHeader.count]
      omega
    rw [if_neg hzero]
    exact ⟨rfl, (append_nil _).symm, rfl⟩

theorem length_headHomes (d : Block) : (headHomes d).length = headCount d := by
  simp [headHomes]

def Storage.Survivor (s : Storage) (v : ℕ → Block) (hsize : 0 < s.log.size)
    (d : ℕ → Block) : Prop :=
  (s.log.redo hsize).Recoverable s.disk (s.log.lh.transaction v) d

namespace Storage.Survivor

variable {d : ℕ → Block} {hsize : 0 < s.log.size}

variable (hd : s.Survivor v hsize d)
include hd

theorem homes : headHomes (d s.log.start) = [] ∨ headHomes (d s.log.start) = s.log.lh.homes := by
  rcases hd with hd | hd | hd
  · exact .inl hd.homes
  · refine .inr (hd.homes.trans ?_)
    rw [transaction_keys]
  · exact .inl hd.homes

theorem mem_homes {a : ℕ} (ha : a ∈ headHomes (d s.log.start)) : a ∈ s.log.lh.homes := by
  rcases hd.homes with hnil | heq
  · rw [hnil] at ha
    exact absurd ha not_mem_nil
  · rwa [← heq]

theorem headCount_le : headCount (d s.log.start) ≤ s.log.lh.count := by
  rw [← length_headHomes]
  rcases hd.homes with hnil | heq
  · rw [hnil]
    exact Nat.zero_le _
  · rw [heq, length_homes]

include h in
theorem clear :
    ∀ a ∈ headHomes (d s.log.start), a < s.log.start ∨
      s.log.start + headCount (d s.log.start) < a := by
  intro a ha
  have hle := hd.headCount_le
  rcases h.clear a (hd.mem_homes ha) with hlt | hgt
  · exact .inl hlt
  · exact .inr (by omega)

include h in
theorem recovery {r : Storage} (hr : Boots s.log s.diskSize d r) (hk : r.writes.length ≤ k) :
    s.Survivor v hsize ((recoverFromLog r).2.diskAfter k) := by
  obtain ⟨p, hp, hw⟩ : ∃ p, p <+: (s.log.redo hsize).recoverWrites d ∧
      r.Wrote (recoverFromLog r).2 p := by
    refine wp_state (P := fun t => ∃ p, p <+: (s.log.redo hsize).recoverWrites d ∧
      r.Wrote t p) (wp_mono (recoverFromLog_spec hsize hr (hd.clear h)) ?_ ?_)
    · exact fun _ t ht => ⟨_, prefix_refl _, ht⟩
    · rintro _ t ⟨p, hp, ht, -⟩
      exact ⟨p, hp, ht⟩
  obtain ⟨q, hq, hdisk⟩ := hw.diskAfter hk
  rw [hdisk, hr.disk]
  exact hd.along_recoverWrites h.fits q (hq.trans hp)

include h in
theorem recoveries {d' : ℕ → Block} (hrec : Recoveries s.log s.diskSize d d') :
    s.Survivor v hsize d' := by
  induction hrec with
  | none => exact hd
  | crash _ hr hk ih => exact ih.recovery h hr hk

end Storage.Survivor

include h in
theorem Storage.ReadyToCommit.survivor (hk : s.writes.length ≤ k) :
    s.Survivor v h.size ((commit s).2.diskAfter k) := by
  have hsettled : (s.log.redo h.size).Settled s.disk s.disk :=
    ⟨headHomes_eq_nil h.head, fun _ _ => rfl⟩
  have hv : (s.log.redo h.size).homes (s.commitHead v) =
      (s.log.lh.transaction v).map Prod.fst := by
    rw [transaction_keys]
    exact headHomes_encodeHead _ _ h.fitsHead
  have hc : (s.log.redo h.size).homes (setWord (s.commitHead v) 0 0) = [] :=
    (s.log.redo h.size).homes_clear (s.commitHead v)
  obtain ⟨p, hp, hw⟩ : ∃ p, p <+: s.commitPlan v h.size ∧ s.Wrote (commit s).2 p := by
    refine wp_state (P := fun t => ∃ p, p <+: s.commitPlan v h.size ∧ s.Wrote t p)
      (wp_mono (commit_spec h) (fun _ t ht => ⟨_, ?_, ht⟩) fun _ t ht => ht)
    split
    · exact prefix_refl _
    · exact nil_prefix
  obtain ⟨q, hq, hdisk⟩ := hw.diskAfter hk
  rw [hdisk]
  exact h.fits.along_commitWrites hsettled hv hc q (hq.trans hp)

/-- The disk once the transaction is installed. -/
def Storage.installed (s : Storage) (v : ℕ → Block) (b : ℕ) : Block :=
  if b ∈ s.log.lh.homes then v b else s.disk b

theorem applyWrites_transaction (s : Storage) (v : ℕ → Block) :
    applyWrites s.disk (s.log.lh.transaction v) = s.installed v := by
  funext b
  exact applyWrites_map s.disk v s.log.lh.homes b

/-- A recovery that completes leaves the disk as it was before the transaction
or as it is after it, and an empty header. -/
theorem Storage.Survivor.recovered (hd : s.Survivor v hsize d) {r t : Storage} (hdisk : r.disk = d)
    (hw : r.Wrote t ((s.log.redo hsize).recoverWrites d)) :
    wordAt (t.disk s.log.start) 0 = 0 ∧
      ((∀ b ∉ s.log.region, t.disk b = s.disk b) ∨
        ∀ b ∉ s.log.region, t.disk b = s.installed v b) := by
  rw [hw.disk, hdisk]
  refine ⟨?_, ?_⟩
  · rw [Layout.recoverWrites, applyWrites_append, applyWrites_cons, applyWrites_nil]
    simp [Log.redo, Log.layout]
  · rw [← applyWrites_transaction]
    exact hd.settled_recoverWrites.imp (fun h => h.same) fun h => h.same

/-- Recovery completes when the log and the homes of the transaction are on the
disk. -/
theorem Storage.Survivor.completes (hd : s.Survivor v hsize d) (h : s.ReadyToCommit v) {r : Storage}
    (hr : Boots s.log s.diskSize d r) (hlog : s.log.start + s.log.size ≤ s.diskSize)
    (hhomes : ∀ a ∈ s.log.lh.homes, a < s.diskSize) : ∃ t, recoverFromLog r = (.ok (), t) := by
  have hspec := recoverFromLog_spec hsize hr (hd.clear h)
  have hle := hd.headCount_le
  have hfit := h.fitsLog
  rcases hx : recoverFromLog r with ⟨e | _, t⟩
  · simp only [wp, hx] at hspec
    obtain ⟨p, -, -, hstop⟩ := hspec
    rcases hstop (hle.trans h.fitsHead) with hstart | ⟨k, hk, hslot | ⟨a, ha, hge⟩⟩
    · omega
    · omega
    · have := hhomes a (hd.mem_homes ha)
      omega
  · exact ⟨t, rfl⟩

def freshKernel (d : ℕ → Block) (diskSize : ℕ) (log : Log) : Storage where
  image := d
  writes := []
  diskSize := diskSize
  cache := binit
  log := log

theorem freshKernel_boots (d : ℕ → Block) (diskSize : ℕ) (log : Log)
    (hdev : log.dev = rootDev) : Boots log diskSize d (freshKernel d diskSize log) := by
  have hbuf : ∀ i, ((freshKernel d diskSize log).buf i).dev ≠ rootDev :=
    fun i => Nat.zero_ne_one
  refine ⟨⟨?_, ?_, ?_, ?_, fun b _ => rfl⟩, ⟨fun _ => rfl, ?_, fun _ _ => ⟨rfl, rfl⟩⟩, rfl,
    rfl, rfl, hdev, rfl⟩
  · simp [freshKernel, binit]
  · exact fun i _ hi => absurd hi (hbuf i)
  · exact fun i hi => absurd hi (hbuf i)
  · exact fun i hi => absurd hi (hbuf i)
  · exact fun i hi => absurd hi (Finset.notMem_empty i)

/-- A commit cut by a crash after any of its writes, followed by any number of
recoveries cut by a crash, is undone or completed by the first recovery that is
not cut. -/
theorem commit_crash_atomic (h : s.ReadyToCommit v) (hk : s.writes.length ≤ k)
    (hd : Recoveries s.log s.diskSize ((commit s).2.diskAfter k) d) :
    (∀ b ∉ s.log.region, b ∉ s.log.lh.homes → d b = s.disk b) ∧
      ∀ r, Boots s.log s.diskSize d r →
        (∀ t, recoverFromLog r = (.ok (), t) →
          wordAt (t.disk s.log.start) 0 = 0 ∧
            ((∀ b ∉ s.log.region, t.disk b = s.disk b) ∨
              ∀ b ∉ s.log.region, t.disk b = s.installed v b)) ∧
        (s.log.start + s.log.size ≤ s.diskSize → (∀ a ∈ s.log.lh.homes, a < s.diskSize) →
          ∃ t, recoverFromLog r = (.ok (), t)) := by
  have hsurvivor := (h.survivor hk).recoveries h hd
  refine ⟨?_, fun r hr => ⟨?_, hsurvivor.completes h hr⟩⟩
  · intro b hb hhome
    refine hsurvivor.frame hb ?_
    rwa [transaction_keys]
  · intro t ht
    have hwrote := wp_ok (recoverFromLog_spec h.size hr (hsurvivor.clear h)) ht
    exact hsurvivor.recovered hr.disk hwrote

def loggedBuf (blockno : ℕ) (c : BitVec 8) (b : Buf) : Buf :=
  { b with valid := true, dirty := true, dev := rootDev, blockno := blockno, data := fun _ => c }

def twoBlocksLogged : Storage :=
  ((freshKernel (fun _ _ => 0) 1000
    { start := 2, size := 30, dev := rootDev, lh := { n := 2, block := fun i => 100 + i } }).setBuf
      0 (loggedBuf 100 7)).setBuf 1 (loggedBuf 101 8)

def twoBlocksContents : ℕ → Block :=
  update (update (fun _ _ => 0) 100 fun _ => 7) 101 fun _ => 8

theorem twoBlocksLogged_ready : twoBlocksLogged.ReadyToCommit twoBlocksContents := by
  have hhomes : twoBlocksLogged.log.lh.homes = [100, 101] := by decide
  have hbuf : ∀ i, (twoBlocksLogged.buf i).dev = rootDev → i = 0 ∨ i = 1 := by decide
  refine ⟨⟨?_, by decide +kernel, ?_, ?_, ?_⟩, rfl, ?_, ?_, ?_, by decide, by decide, by decide⟩
  · decide
  · decide
  · intro i hi _
    rcases hbuf i hi with rfl | rfl <;> rfl
  · intro b hb
    have hne : b ≠ 100 ∧ b ≠ 101 := by
      constructor <;> rintro rfl
      · exact hb ⟨0, rfl, rfl, rfl⟩
      · exact hb ⟨1, rfl, rfl, rfl⟩
    rw [twoBlocksContents, update_of_ne hne.2, update_of_ne hne.1]
    rfl
  · decide
  · decide
  · rw [hhomes]
    simp [Log.region, twoBlocksLogged, freshKernel]

/-- The crash comes after the header of the log is written, and the first recovery is cut after
one of its writes. -/
theorem commit_crash_atomic_twoBlocks :
    ∃ t : Storage, wordAt (t.disk 2) 0 = 0 ∧
      ((∀ b ∉ twoBlocksLogged.log.region, t.disk b = twoBlocksLogged.disk b) ∨
        ∀ b ∉ twoBlocksLogged.log.region,
          t.disk b = twoBlocksLogged.installed twoBlocksContents b) := by
  have hfirst := freshKernel_boots ((commit twoBlocksLogged).2.diskAfter 3) 1000
    twoBlocksLogged.log rfl
  have hcut := (Recoveries.none (d := (commit twoBlocksLogged).2.diskAfter 3)).crash hfirst
    (k := 1) (Nat.zero_le 1)
  obtain ⟨-, hrec⟩ := commit_crash_atomic twoBlocksLogged_ready (k := 3) (Nat.zero_le 3) hcut
  obtain ⟨hatomic, hcompletes⟩ := hrec _ (freshKernel_boots _ 1000 twoBlocksLogged.log rfl)
  obtain ⟨t, ht⟩ := hcompletes (by decide) (by decide)
  exact ⟨t, hatomic t ht⟩

end Xv6
