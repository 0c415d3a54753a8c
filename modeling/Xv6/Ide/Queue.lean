import Mathlib.Data.Fintype.EquivFin
import Xv6.Ide.Model

/-!
# The queue of the disk driver

The links of `idequeue` lead through a list without repetitions of buffers, each of which
is locked by a process in `iderw` and not yet in step with the disk. The drive serves the
first of them. Every event changes the list in one way: a call of `iderw` appends a buffer,
an interrupt takes off the first one, and the others leave it alone.
-/

namespace Xv6.Ide

open Function List Option

open LinkedQueue (Leads)

variable {P : Type*} {s t : State P} {l : List (Fin nBuf)} {p : P} {i : Fin nBuf}

def State.Serves (s : State P) : List (Fin nBuf) → Prop
  | [] => s.drive = .idle
  | i :: _ =>
    (s.buf i).blockno < fsSize ∧ (s.drive = .busy (command (s.buf i)) ∨
        s.drive = .done (command (s.buf i))
          (s.disk (command (s.buf i)).drive (command (s.buf i)).lba))

/-- The queue is `l`. -/
structure Inv (s : State P) (l : List (Fin nBuf)) : Prop where
  leads : Leads s.next none l
  nodup : l.Nodup
  requested : s.requested = s.completed ++ l
  started : s.started = s.completed ++ l.take 1
  serves : s.Serves l
  waits : ∀ p i, (s.pc p).waits = some i → (s.buf i).lock = some p ∧ (i ∈ l ∨ Synced (s.buf i))
  queued : ∀ i ∈ l, ¬ Synced (s.buf i) ∧ ∃ p, (s.buf i).lock = some p ∧ (s.pc p).waits = some i

theorem inv_ideinit (buf : Fin nBuf → Buf P) (disk : ℕ → ℕ → Block) (havedisk1 : Bool) :
    Inv (ideinit buf disk havedisk1) [] where
  leads := rfl
  nodup := nodup_nil
  requested := rfl
  started := rfl
  serves := rfl
  waits p i hp := by cases hp
  queued i hi := by cases hi

theorem Inv.mem_iff (h : Inv s l) (hp : (s.pc p).waits = some i) : i ∈ l ↔ ¬ Synced (s.buf i) := by
  constructor
  · intro hi
    exact (h.queued i hi).1
  · intro hnot
    exact (h.waits p i hp).2.resolve_right hnot

theorem Inv.move (h : Inv s l) (hnext : t.next = s.next) (hbuf : t.buf = s.buf)
    (hserves : t.Serves l) (hrequested : t.requested = s.requested)
    (hstarted : t.started = s.started) (hcompleted : t.completed = s.completed)
    (hwaits : ∀ q, (t.pc q).waits = (s.pc q).waits) : Inv t l where
  leads := hnext ▸ h.leads
  nodup := h.nodup
  requested := by rw [hrequested, hcompleted, h.requested]
  started := by rw [hstarted, hcompleted, h.started]
  serves := hserves
  waits q i hq := by
    rw [hbuf]
    exact h.waits q i ((hwaits q).symm.trans hq)
  queued i hi := by
    obtain ⟨hnot, q, hq, hpc⟩ := h.queued i hi
    rw [hbuf]
    exact ⟨hnot, q, hq, (hwaits q).trans hpc⟩

theorem wakeup_waits (s : State P) (i : Fin nBuf) (q : P) :
    ((s.wakeup i).pc q).waits = (s.pc q).waits := by
  simp only [State.wakeup]
  split
  · rename_i hq
    rw [hq]
    rfl
  · rfl

theorem Inv.transfer (h : Inv s l) (hok : s.transfer = some t) : Inv t l := by
  rw [State.transfer] at hok
  split at hok
  · rename_i c hdrive
    cases hok
    refine h.move rfl rfl ?_ rfl rfl rfl fun _ => rfl
    cases l with
    | nil => exact absurd (hdrive.symm.trans h.serves) (by simp)
    | cons i l =>
      obtain ⟨hblock, hbusy | hdone⟩ := h.serves
      · obtain rfl : c = command (s.buf i) := by
          rw [hdrive] at hbusy
          injection hbusy
        exact ⟨hblock, .inr rfl⟩
      · exact absurd (hdrive.symm.trans hdone) (by simp)
  · cases hok

theorem idestart_eq (hok : s.idestart i = some t) :
    (s.buf i).blockno < fsSize ∧
      t = { s with drive := .busy (command (s.buf i)), started := s.started ++ [i] } := by
  rw [State.idestart] at hok
  split at hok
  · cases hok
  · rename_i hblock
    exact ⟨Nat.lt_of_not_le hblock, (Option.some.inj hok).symm⟩

/-- The handler completes the first request and starts the next one. -/
theorem Inv.ideintr (h : Inv s (i :: l)) {sector : Block} (hok : s.ideintr sector = some t) :
    Inv t l ∧ t.buf = update s.buf i (State.finish (s.buf i) sector) ∧
      t.pc = (s.wakeup i).pc ∧ t.disk = s.disk ∧ ∀ c d, t.drive ≠ .done c d := by
  have hleads := h.leads.dequeue
  have hhead := hleads.head?_eq
  obtain ⟨hout, hnodup⟩ := nodup_cons.1 h.nodup
  have hne : ∀ k ∈ l, k ≠ i := fun k hk heq => hout (heq ▸ hk)
  have hwaits : ∀ q k, (s.pc q).waits = some k →
      (update s.buf i (State.finish (s.buf i) sector) k).lock = some q ∧
        (k ∈ l ∨ Synced (update s.buf i (State.finish (s.buf i) sector) k)) := by
    intro q k hq
    obtain ⟨hlock, hk⟩ := h.waits q k hq
    by_cases hki : k = i
    · subst hki
      rw [update_self]
      exact ⟨hlock, .inr ⟨rfl, rfl⟩⟩
    · rw [update_of_ne hki]
      refine ⟨hlock, hk.imp_left fun hmem => ?_⟩
      exact (mem_cons.1 hmem).resolve_left hki
  have hqueued : ∀ k ∈ l, ¬ Synced (update s.buf i (State.finish (s.buf i) sector) k) ∧
        ∃ q, (update s.buf i (State.finish (s.buf i) sector) k).lock = some q ∧
          (s.pc q).waits = some k := by
    intro k hk
    rw [update_of_ne (hne k hk)]
    exact h.queued k (mem_cons_of_mem i hk)
  rw [State.ideintr, h.leads.1] at hok
  simp only [hhead] at hok
  cases l with
  | nil =>
    cases hok
    refine ⟨⟨hleads, hnodup, ?_, ?_, rfl, ?_, ?_⟩, rfl, rfl, rfl, by simp [State.wakeup]⟩
    · simp [State.wakeup, h.requested]
    · simp [State.wakeup, h.started]
    · intro q k hq
      rw [wakeup_waits] at hq
      exact hwaits q k hq
    · intro k hk
      cases hk
  | cons j l =>
    obtain ⟨hblock, rfl⟩ := idestart_eq hok
    refine ⟨⟨hleads, hnodup, ?_, ?_, ⟨hblock, .inl rfl⟩, ?_, ?_⟩, rfl, rfl, rfl, by simp⟩
    · simp [State.wakeup, h.requested]
    · simp [State.wakeup, h.started]
    · intro q k hq
      exact hwaits q k ((wakeup_waits _ i q).symm.trans hq)
    · intro k hk
      obtain ⟨hnot, q, hlock, hq⟩ := hqueued k hk
      exact ⟨hnot, q, hlock, (wakeup_waits _ i q).trans hq⟩

theorem Inv.not_waits (h : Inv s l) (hi : editable s.buf s.pc i = true) (q : P) :
    (s.pc q).waits ≠ some i := by
  intro hq
  rw [editable, (h.waits q i hq).1] at hi
  simp [hq] at hi

theorem Inv.edit (h : Inv s l) (hi : editable s.buf s.pc i = true) (b : Buf P) :
    Inv { s with buf := update s.buf i b } l := by
  have hnot : i ∉ l := by
    intro hmem
    obtain ⟨-, q, -, hq⟩ := h.queued i hmem
    exact h.not_waits hi q hq
  have hother : ∀ k, k ≠ i → update s.buf i b k = s.buf k := fun k hk =>
    update_of_ne hk _ _
  refine ⟨h.leads, h.nodup, h.requested, h.started, ?_, fun q k hq => ?_, fun k hk => ?_⟩
  · cases l with
    | nil => exact h.serves
    | cons j l =>
      have hji : j ≠ i := fun heq => hnot (heq ▸ mem_cons_self)
      simp only [State.Serves, hother j hji]
      exact h.serves
  · have hki : k ≠ i := fun heq => h.not_waits hi q (heq ▸ hq)
    simp only [hother k hki]
    exact h.waits q k hq
  · have hki : k ≠ i := fun heq => hnot (heq ▸ hk)
    simp only [hother k hki]
    exact h.queued k hk

variable [DecidableEq P]

/-- A process that waits goes back to sleep, or returns because its request has left the
queue. -/
theorem Inv.wait (h : Inv s l) (hp : (s.pc p).waits = some i) : Inv (s.wait p i) l := by
  rw [State.wait]
  split
  · rename_i hsynced
    refine ⟨h.leads, h.nodup, h.requested, h.started, ?_, fun q k hq => ?_, fun k hk => ?_⟩
    · cases l with
      | nil => exact h.serves
      | cons j l => exact h.serves
    · have hqp : q ≠ p := by
        rintro rfl
        simp [State.goto] at hq
      simp only [State.goto, update_of_ne hqp] at hq
      exact h.waits q k hq
    · obtain ⟨hnot, q, hlock, hq⟩ := h.queued k hk
      refine ⟨hnot, q, hlock, ?_⟩
      have hqp : q ≠ p := by
        rintro rfl
        cases hq.symm.trans hp
        exact hnot hsynced
      simp only [State.goto, update_of_ne hqp]
      exact hq
  · refine h.move rfl rfl ?_ rfl rfl rfl fun q => ?_
    · cases l with
      | nil => exact h.serves
      | cons j l => exact h.serves
    · by_cases hqp : q = p
      · subst hqp
        simp [State.goto, hp]
      · simp [State.goto, hqp]

theorem Inv.kill (h : Inv s l) (hp : s.pc p = .asleep i) : Inv (s.goto p (.woken i)) l := by
  refine h.move rfl rfl ?_ rfl rfl rfl fun q => ?_
  · cases l with
    | nil => exact h.serves
    | cons j l => exact h.serves
  · by_cases hqp : q = p
    · subst hqp
      simp [State.goto, hp]
    · simp [State.goto, hqp]

/-- A call of `iderw` puts its buffer at the end, and starts it if it is alone. -/
theorem Inv.iderw (h : Inv s l) (hp : s.pc p = .out) (hok : s.iderw p i = some t) :
    Inv t (l ++ [i]) ∧ t.buf = s.buf ∧ t.pc = update s.pc p (.asleep i) ∧ t.disk = s.disk ∧
      t.drive = if l = [] then .busy (command (s.buf i)) else s.drive := by
  obtain ⟨hlock, hok⟩ := ite_none_left_eq_some.1 hok
  obtain ⟨hnot, hok⟩ := ite_none_left_eq_some.1 hok
  obtain ⟨-, hok⟩ := ite_none_left_eq_some.1 hok
  have hlock := not_not.1 hlock
  have hmem : i ∉ l := by
    intro hi
    obtain ⟨-, q, hq, hwaits⟩ := h.queued i hi
    cases hq.symm.trans hlock
    rw [hp] at hwaits
    cases hwaits
  have hlen : l.length < nBuf + 1 := by
    have hle := h.nodup.length_le_card
    exact Nat.lt_succ_of_le hle
  obtain ⟨next, henqueue, hleads⟩ := h.leads.enqueue h.nodup hmem hlen
  rw [henqueue, bind_some] at hok
  simp only [hleads.head?_eq] at hok
  have hnodup : (l ++ [i]).Nodup := by
    rw [nodup_append_comm, singleton_append, nodup_cons]
    exact ⟨hmem, h.nodup⟩
  have hwaits : ∀ q k, (update s.pc p (.asleep i) q).waits = some k →
      (s.buf k).lock = some q ∧ (k ∈ l ++ [i] ∨ Synced (s.buf k)) := by
    intro q k hq
    by_cases hqp : q = p
    · subst hqp
      rw [update_self] at hq
      cases hq
      exact ⟨hlock, .inl (by simp)⟩
    · rw [update_of_ne hqp] at hq
      obtain ⟨hk, hor⟩ := h.waits q k hq
      exact ⟨hk, hor.imp_left (mem_append_left [i])⟩
  have hqueued : ∀ k ∈ l ++ [i], ¬ Synced (s.buf k) ∧
      ∃ q, (s.buf k).lock = some q ∧ (update s.pc p (.asleep i) q).waits = some k := by
    intro k hk
    rcases mem_append.1 hk with hk | hk
    · obtain ⟨hns, q, hq, hpc⟩ := h.queued k hk
      refine ⟨hns, q, hq, ?_⟩
      rw [update_of_ne]
      · exact hpc
      · rintro rfl
        rw [hp] at hpc
        cases hpc
    · obtain rfl := mem_singleton.1 hk
      exact ⟨hnot, p, hlock, by rw [update_self]; rfl⟩
  obtain ⟨u, hu, rfl⟩ := map_eq_some_iff.1 hok
  cases l with
  | nil =>
    rw [nil_append, List.head?_cons, if_pos rfl] at hu
    obtain ⟨hblock, rfl⟩ := idestart_eq hu
    simp only [State.wait, if_neg hnot]
    refine ⟨⟨hleads, hnodup, ?_, ?_, ⟨hblock, .inl rfl⟩, hwaits, hqueued⟩, rfl, rfl, rfl, rfl⟩
    · simp [State.goto, h.requested]
    · simp [State.goto, h.started]
  | cons j l =>
    have hji : j ≠ i := fun heq => hmem (heq ▸ mem_cons_self)
    rw [cons_append, List.head?_cons, if_neg fun heq => hji (Option.some.inj heq)] at hu
    cases hu
    simp only [State.wait, if_neg hnot]
    refine ⟨⟨hleads, hnodup, ?_, ?_, h.serves, hwaits, hqueued⟩, rfl, rfl, rfl, rfl⟩
    · simp [State.goto, h.requested]
    · simp [State.goto, h.started]

def nextQueue (l : List (Fin nBuf)) : Event P → List (Fin nBuf)
  | .iderw _ i => l ++ [i]
  | .ideintr => l.tail
  | .edit _ _ | .transfer | .resume _ | .kill _ => l

theorem step_inv {e : Event P} (h : Inv s l) (hstep : step s e = some t) :
    Inv t (nextQueue l e) := by
  cases e with
  | edit i b =>
    obtain ⟨hi, rfl⟩ := ite_some_none_eq_some.1 hstep
    exact h.edit hi b
  | iderw p i =>
    obtain ⟨hp, hok⟩ := ite_none_right_eq_some.1 hstep
    exact (h.iderw hp hok).1
  | transfer => exact h.transfer hstep
  | ideintr =>
    simp only [step] at hstep
    split at hstep
    · rename_i c sector hdrive
      cases l with
      | nil => exact absurd (hdrive.symm.trans h.serves) (by simp)
      | cons i l => exact (h.ideintr hstep).1
    · cases hstep
  | resume p =>
    simp only [step] at hstep
    split at hstep
    · rename_i i hp
      cases hstep
      exact h.wait (by rw [hp]; rfl)
    · cases hstep
  | kill p =>
    simp only [step] at hstep
    split at hstep
    · rename_i i hp
      cases hstep
      exact h.kill hp
    · cases hstep
      exact h

end Xv6.Ide
