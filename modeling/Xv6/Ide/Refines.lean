import Xv6.Ide.Queue

/-!
# The driver against the disk in memory

The driver of `ide.c` does to the buffers and to the disk what `iderw` of `memide.c` does
when it runs at the completion of each request. Both take the same events. The contents of
the disk are the same, except that a write which the drive has carried out and the handler
has not completed is on the disk already. A process leaves `iderw` when its request has
completed, although it tests the flags of its buffer only.
-/

namespace Xv6.Ide

open Function List

variable {P : Type*} {s t : State P} {a : Sync P} {l : List (Fin nBuf)} {p : P} {i : Fin nBuf}
  {disk : ℕ → ℕ → Block} {buf : Fin nBuf → Buf P} {es : List (Event P)} {c : Command}
  {havedisk1 : Bool}

/-- The disk when the command that the drive has carried out is done to it. -/
def Drive.settle : Drive → (ℕ → Block) → ℕ → Block
  | .done c _, disk =>
    match c.data with
    | none => disk
    | some d => update disk c.lba d
  | .idle, disk | .busy _, disk => disk

theorem Drive.settle_of_not_done {d : Drive} (h : ∀ c x, d ≠ .done c x) (disk : ℕ → Block) :
    d.settle disk = disk := by
  cases d with
  | idle => rfl
  | busy c => rfl
  | done c x => exact absurd rfl (h c x)

theorem Command.apply_root (hc : c.drive = rootDev) (disk : ℕ → ℕ → Block)
    (x : Block) : c.apply disk rootDev = (Drive.done c x).settle (disk rootDev) := by
  obtain ⟨drive, lba, data⟩ := c
  obtain rfl : drive = rootDev := hc
  cases data with
  | none => rfl
  | some d => exact update_self rootDev (update (disk rootDev) lba d) disk

theorem Drive.settle_write {d : Block} (hc : c.data = some d) (x : Block)
    (disk : ℕ → Block) : (Drive.done c x).settle disk = update disk c.lba d := by
  simp only [Drive.settle, hc]

theorem Drive.settle_read (hc : c.data = none) (x : Block) (disk : ℕ → Block) :
    (Drive.done c x).settle disk = disk := by
  simp only [Drive.settle, hc]

theorem command_drive_lba {b : Buf P} (hdev : b.dev = rootDev) (hblock : b.blockno < fsSize) :
    (command b).drive = rootDev ∧ (command b).lba = b.blockno := by
  refine ⟨?_, ?_⟩
  · simp only [command, hdev]
    rfl
  · have hsector : b.blockno * (bSize / sectorSize) = b.blockno := Nat.mul_one _
    simp only [command]
    rw [hsector]
    exact lba_eq (hblock.trans (by decide))

/-- The driver and the disk in memory are at the same point. -/
structure Simulates (s : State P) (a : Sync P) (l : List (Fin nBuf)) : Prop where
  buf : a.cache.buf = s.buf
  pc : a.pc = s.pc
  pending : a.pending = l
  disk : s.disk rootDev = s.drive.settle a.cache.disk
  range : ∀ i ∈ l, (s.buf i).dev = rootDev ∧ (s.buf i).blockno < a.cache.diskSize

variable [DecidableEq P]

/-- A call of `iderw` is for a block of disk 1, as that of `memide.c` demands. -/
def Served (size : ℕ) (s : State P) : Event P → Prop
  | .iderw _ i => (s.buf i).dev = rootDev ∧ (s.buf i).blockno < size
  | .edit _ _ | .transfer | .ideintr | .resume _ | .kill _ => True

instance decidableServed (size : ℕ) (s : State P) : ∀ e, Decidable (Served size s e)
  | .iderw _ _ => inferInstanceAs (Decidable (_ ∧ _))
  | .edit _ _ | .transfer | .ideintr | .resume _ | .kill _ => .isTrue trivial

omit [DecidableEq P] in
theorem Simulates.transfer (h : Simulates s a l) (hinv : Inv s l) (hok : s.transfer = some t) :
    Simulates t a l := by
  rw [State.transfer] at hok
  split at hok
  · rename_i c hdrive
    cases hok
    refine ⟨h.buf, h.pc, h.pending, ?_, h.range⟩
    have hdisk := h.disk
    rw [hdrive] at hdisk
    cases l with
    | nil => exact absurd (hdrive.symm.trans hinv.serves) (by simp)
    | cons i l =>
      obtain ⟨hblock, hbusy | hdone⟩ := hinv.serves
      · obtain rfl : c = command (s.buf i) := by
          rw [hdrive] at hbusy
          injection hbusy
        have hone := (command_drive_lba (h.range i mem_cons_self).1 hblock).1
        have happly : ∀ x, (command (s.buf i)).apply s.disk rootDev =
            (Drive.done (command (s.buf i)) x).settle a.cache.disk := fun x => by
          rw [Command.apply_root hone s.disk x, hdisk]
          rfl
        exact happly _
      · exact absurd (hdrive.symm.trans hdone) (by simp)
  · cases hok

/-- The handler does what `iderw` of `memide.c` does for the process that holds the
buffer. -/
theorem iderw_of_ideintr (h : Simulates s a (i :: l)) (hinv : Inv s (i :: l))
    (hp : (s.buf i).lock = some p) {sector : Block} (hdrive : s.drive = .done c sector) :
    ∃ cache, a.cache.iderw p i = .ok cache ∧
      cache.buf = update s.buf i (State.finish (s.buf i) sector) ∧
      cache.disk = s.disk rootDev ∧ cache.diskSize = a.cache.diskSize := by
  obtain ⟨hdev, hsize⟩ := h.range i mem_cons_self
  obtain ⟨hnot, -⟩ := hinv.queued i mem_cons_self
  obtain ⟨hblock, hbusy | hdone⟩ := hinv.serves
  · exact absurd (hdrive.symm.trans hbusy) (by simp)
  · obtain ⟨rfl, hsector⟩ : c = command (s.buf i) ∧
        sector = s.disk (command (s.buf i)).drive (command (s.buf i)).lba := by
      rw [hdrive] at hdone
      injection hdone with hc hs
      exact ⟨hc, hs⟩
    obtain ⟨hone, hlba⟩ := command_drive_lba hdev hblock
    have hdisk := h.disk
    rw [hdrive] at hdisk
    rw [BufferCache.State.iderw, h.buf]
    simp only [hp, hdev, Nat.not_le.2 hsize, ne_eq, not_true_eq_false, if_false]
    rw [if_neg (show ¬ (_ ∧ _) from hnot)]
    cases hdirty : (s.buf i).dirty with
    | true =>
      refine ⟨_, if_pos rfl, ?_, ?_, rfl⟩
      · simp [BufferCache.State.setBuf, State.finish, h.buf, hdirty]
      · have hdata : (command (s.buf i)).data = some (s.buf i).data := if_pos hdirty
        rw [hdisk, Drive.settle_write hdata, hlba]
    | false =>
      have hdata : (command (s.buf i)).data = none := if_neg (by simp [hdirty])
      have hsame : s.disk rootDev = a.cache.disk := by rw [hdisk, Drive.settle_read hdata]
      refine ⟨_, if_neg Bool.false_ne_true, ?_, hsame.symm, rfl⟩
      rw [hone, hlba, hsame] at hsector
      simp [BufferCache.State.setBuf, State.finish, h.buf, hdirty, hsector]

theorem step_simulates {e : Event P} (h : Simulates s a l) (hinv : Inv s l)
    (he : Served a.cache.diskSize s e) (hstep : step s e = some t) :
    ∃ b, Sync.step a e = some b ∧ Simulates t b (nextQueue l e) ∧
      b.cache.diskSize = a.cache.diskSize := by
  cases e with
  | edit i x =>
    obtain ⟨hi, rfl⟩ := Option.ite_some_none_eq_some.1 hstep
    refine ⟨{ a with cache := { a.cache with buf := update a.cache.buf i x } }, ?_,
      ⟨?_, h.pc, h.pending, h.disk, ?_⟩, rfl⟩
    · rw [Sync.step, h.buf, h.pc, if_pos hi]
    · simp only [h.buf]
    intro k hk
    obtain ⟨-, q, -, hq⟩ := hinv.queued k hk
    have hki : k ≠ i := fun heq => hinv.not_waits hi q (heq ▸ hq)
    simp only [update_of_ne hki]
    exact h.range k hk
  | iderw p i =>
    obtain ⟨hp, hok⟩ := Option.ite_none_right_eq_some.1 hstep
    obtain ⟨-, hbuf, hpc, hdisk, hdrive⟩ := hinv.iderw hp hok
    refine ⟨{ a with
        pending := a.pending ++ [i]
        pc := update a.pc p (.asleep i) }, ?_, ⟨?_, ?_, ?_, ?_, ?_⟩, rfl⟩
    · rw [Sync.step, h.pc, if_pos hp]
    · rw [hbuf, h.buf]
    · rw [hpc, h.pc]
    · simp only [nextQueue, h.pending]
    · rw [hdisk, hdrive, h.disk]
      split
      · rename_i hl
        subst hl
        rw [show s.drive = .idle from hinv.serves]
        rfl
      · rfl
    · intro k hk
      rw [hbuf]
      rcases mem_append.1 hk with hk | hk
      · exact h.range k hk
      · obtain rfl := mem_singleton.1 hk
        exact he
  | transfer => exact ⟨a, rfl, h.transfer hinv hstep, rfl⟩
  | ideintr =>
    simp only [step] at hstep
    split at hstep
    · rename_i c sector hdrive
      cases l with
      | nil => exact absurd (hdrive.symm.trans hinv.serves) (by simp)
      | cons i l =>
        obtain ⟨-, hbuf, hpc, hdisk, hdone⟩ := hinv.ideintr hstep
        obtain ⟨-, q, hq, -⟩ := hinv.queued i mem_cons_self
        obtain ⟨cache, hcache, hcbuf, hcdisk, hcsize⟩ := iderw_of_ideintr h hinv hq hdrive
        refine ⟨⟨cache, l, (s.wakeup i).pc⟩, ?_, ⟨?_, hpc.symm, rfl, ?_, ?_⟩, hcsize⟩
        · have hlock : (a.cache.buf i).lock = some q := by rw [h.buf, hq]
          simp only [Sync.step, h.pending, hlock, Option.bind_some, hcache, h.pc]
          rfl
        · rw [hcbuf, hbuf]
        · rw [Drive.settle_of_not_done hdone, hdisk, hcdisk]
        · intro k hk
          have hki : k ≠ i := fun heq =>
            (nodup_cons.1 hinv.nodup).1 (heq ▸ hk)
          rw [hbuf, update_of_ne hki, hcsize]
          exact h.range k (mem_cons_of_mem i hk)
    · cases hstep
  | resume p =>
    simp only [step] at hstep
    split at hstep
    · rename_i i hp
      cases hstep
      have hwaits : (s.pc p).waits = some i := by rw [hp]; rfl
      refine ⟨{ a with
        pc := update a.pc p (if i ∈ a.pending then .asleep i else .out) }, ?_,
        ⟨h.buf, ?_, h.pending, h.disk, h.range⟩, rfl⟩
      · simp only [Sync.step, h.pc, hp]
      · have hmem := hinv.mem_iff hwaits
        rw [State.wait, State.goto, h.pc, h.pending]
        by_cases hsynced : Synced (s.buf i)
        · rw [if_neg fun hi => hmem.1 hi hsynced, if_pos hsynced]
        · rw [if_pos (hmem.2 hsynced), if_neg hsynced]
    · cases hstep
  | kill p =>
    simp only [step] at hstep
    split at hstep
    · rename_i i hp
      cases hstep
      refine ⟨{ a with pc := update a.pc p (.woken i) }, ?_,
        ⟨h.buf, ?_, h.pending, h.disk, h.range⟩, rfl⟩
      · simp only [Sync.step, h.pc, hp]
      · rw [State.goto, h.pc]
    · rename_i hp
      cases hstep
      refine ⟨a, ?_, h, rfl⟩
      rw [Sync.step, h.pc]
      split
      · rename_i i hi
        exact absurd hi (hp i)
      · rfl

theorem inv_of_run
    (hrun : Machine.run step (ideinit buf disk havedisk1) es = some s) : ∃ l, Inv s l :=
  Machine.run_invariant (I := fun s => ∃ l, Inv s l) ⟨[], inv_ideinit buf disk havedisk1⟩
    (fun _ e _ ⟨l, h⟩ hstep => ⟨nextQueue l e, step_inv h hstep⟩) hrun

theorem run_simulates
    {cache : BufferCache.State P} (hbuf : cache.buf = buf) (hdisk : cache.disk = disk rootDev)
    (hes : Machine.Meets step (Served cache.diskSize) (ideinit buf disk havedisk1) es)
    (hrun : Machine.run step (ideinit buf disk havedisk1) es = some s) :
    ∃ b l, Machine.run Sync.step ⟨cache, [], fun _ => .out⟩ es = some b ∧ Simulates s b l ∧
      Inv s l ∧ b.cache.diskSize = cache.diskSize := by
  refine Machine.run_history (I := fun es s =>
    Machine.Meets step (Served cache.diskSize) (ideinit buf disk havedisk1) es →
      ∃ b l, Machine.run Sync.step ⟨cache, [], fun _ => .out⟩ es = some b ∧ Simulates s b l ∧
        Inv s l ∧ b.cache.diskSize = cache.diskSize) ?_ ?_ hrun hes
  · intro _
    refine ⟨_, [], rfl, ⟨hbuf, rfl, rfl, hdisk.symm, ?_⟩, inv_ideinit buf disk havedisk1, rfl⟩
    intro i hi
    cases hi
  · intro es t e u ht ih hstep hmeets
    obtain ⟨hmeets, he⟩ := (Machine.meets_concat ht).1 hmeets
    obtain ⟨b, l, hb, hsim, hinv, hsize⟩ := ih hmeets
    rw [← hsize] at he
    obtain ⟨c, hc, hsim', hsize'⟩ := step_simulates hsim hinv he hstep
    exact ⟨c, _, Machine.run_concat.2 ⟨b, hb, hc⟩, hsim', step_inv hinv hstep, hsize'.trans hsize⟩

/-- In every run `idequeue` leads through a list without repetitions, whose first buffer is
the one started last and the one that the drive serves. The requests that were completed,
started and made are beginnings of one another, and one at most has started and not
completed. If the calls are for blocks of disk 1, the buffers, the processes and the disk
are those of a run of `memide.c` in which `iderw` runs at the completions. -/
theorem iderw_refines_memide (hrun : Machine.run step (ideinit buf disk havedisk1) es = some s) :
    (∃ l, LinkedQueue.Leads s.next none l ∧ l.Nodup ∧ s.requested = s.completed ++ l ∧
      s.started = s.completed ++ l.take 1 ∧
      (∀ i, s.next none = some i → s.started.getLast? = some i ∧
        (s.drive = .busy (command (s.buf i)) ∨
          ∃ sector, s.drive = .done (command (s.buf i)) sector)) ∧
      (s.next none = none → s.drive = .idle)) ∧
    ∀ cache : BufferCache.State P, cache.buf = buf → cache.disk = disk rootDev →
      Machine.Meets step (Served cache.diskSize) (ideinit buf disk havedisk1) es →
      ∃ a, Machine.run Sync.step ⟨cache, [], fun _ => .out⟩ es = some a ∧
        a.cache.buf = s.buf ∧ a.pc = s.pc ∧ s.disk rootDev = s.drive.settle a.cache.disk := by
  refine ⟨?_, fun cache hbuf hdisk hes => ?_⟩
  · obtain ⟨l, h⟩ := inv_of_run hrun
    refine ⟨l, h.leads, h.nodup, h.requested, h.started, fun i hi => ?_, fun hnone => ?_⟩
    · rw [h.leads.head?_eq] at hi
      cases l with
      | nil => cases hi
      | cons j l =>
        cases hi
        refine ⟨?_, h.serves.2.imp_right fun hdone => ⟨_, hdone⟩⟩
        rw [h.started]
        simp
    · rw [h.leads.head?_eq] at hnone
      cases l with
      | nil => exact h.serves
      | cons j l => cases hnone
  · obtain ⟨a, l, ha, hsim, -, -⟩ := run_simulates hbuf hdisk hes hrun
    exact ⟨a, ha, hsim.buf, hsim.pc, hsim.disk⟩

def dirtyBuf (p : Fin 2) (b : ℕ) : Buf (Fin 2) where
  valid := true
  dirty := true
  dev := rootDev
  blockno := b
  lock := some p
  refcnt := 1
  data _ := 7

/-- The request of process 1 waits in the queue behind that of process 0. -/
def writeBlocks : List (Event (Fin 2)) :=
  [.edit 3 (dirtyBuf 0 5), .edit 4 (dirtyBuf 1 6), .iderw 0 3, .iderw 1 4, .transfer, .ideintr,
    .resume 0, .transfer, .ideintr, .resume 1]

def emptyCache : BufferCache.State (Fin 2) :=
  BufferCache.boot (Fin 2) (fun _ _ => 0) fsSize ⟨0, 0, []⟩

theorem iderw_refines_memide_writeBlocks :
    ∃ s a, Machine.run step (ideinit emptyCache.buf (fun _ => emptyCache.disk) true)
        writeBlocks = some s ∧ s.pc 1 = .out ∧ s.completed = [3, 4] ∧
      Machine.run Sync.step ⟨emptyCache, [], fun _ => .out⟩ writeBlocks = some a ∧
      a.cache.buf = s.buf ∧ s.disk rootDev = s.drive.settle a.cache.disk := by
  obtain ⟨s, hs, hpc, hcompleted⟩ : ∃ s, Machine.run step
      (ideinit emptyCache.buf (fun _ => emptyCache.disk) true) writeBlocks = some s ∧
      s.pc 1 = .out ∧ s.completed = [3, 4] := by decide +kernel
  obtain ⟨a, ha, hbuf, -, hdisk⟩ := (iderw_refines_memide hs).2 emptyCache rfl rfl
    (by decide +kernel)
  exact ⟨s, a, hs, hpc, hcompleted, ha, hbuf, hdisk⟩

end Xv6.Ide
