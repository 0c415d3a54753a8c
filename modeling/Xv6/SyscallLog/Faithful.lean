import Xv6.SyscallLog.Change

/-!
# The log of a process

The pair for a call is found before the call runs and filled in when it has returned. In
between nobody else fills in pairs of the process, with one exception: `kill` copies the log
of the process it finds over the log of init. In the runs in which it comes only to empty
pairs, or copies pairs of init to where they are, the log of every process is the list of the
calls it has completed.
-/

namespace Xv6.SyscallLog

open Gather Machine Function

variable {s t : System} {p q : Slot} {log : Log} {l : List Entry} {fault : Option Access}

/-- The log holds the first `NLOGPAIR` entries of the list, followed by empty pairs. -/
def Lists (log : Log) (l : List Entry) : Prop :=
  ∀ i < nLogPair, (∀ e, l[i]? = some e → log i = e) ∧ (l[i]? = none → (log i).callno = 0)

theorem lists_nil (h : ∀ i < nLogPair, (log i).callno = 0) : Lists log [] :=
  fun i hi => ⟨by simp, fun _ => h i hi⟩

theorem Lists.callno_ne_zero (h : Lists log l) (hl : ∀ e ∈ l, e.callno ≠ 0) {i : ℕ}
    (hi : i < nLogPair) : (log i).callno ≠ 0 ↔ i < l.length := by
  constructor
  · intro hne
    by_contra hlt
    exact hne ((h i hi).2 (List.getElem?_eq_none (not_lt.1 hlt)))
  · intro hlt
    rw [(h i hi).1 _ (List.getElem?_eq_getElem hlt)]
    exact hl _ (List.getElem_mem hlt)

theorem Lists.used_eq (h : Lists log l) (hl : ∀ e ∈ l, e.callno ≠ 0) (hc : Contiguous log) :
    used log = min l.length nLogPair := by
  have hiff : ∀ i < nLogPair, i < used log ↔ i < l.length := fun i hi => by
    rw [← hc.callno_ne_zero hi, h.callno_ne_zero hl hi]
  apply le_antisymm
  · refine le_min ?_ (used_le log)
    by_contra hlt
    rw [not_le] at hlt
    exact lt_irrefl _ ((hiff _ (hlt.trans_le (used_le log))).1 hlt)
  · by_contra hlt
    rw [not_le] at hlt
    obtain ⟨hlen, hmax⟩ := Nat.lt_min.1 hlt
    exact lt_irrefl _ ((hiff _ hmax).2 hlen)

theorem Lists.concat (h : Lists log l) (e : Entry) :
    Lists (if min l.length nLogPair < nLogPair then
      update log (min l.length nLogPair) e else log) (l ++ [e]) := by
  split_ifs with hlt
  · have hlen : min l.length nLogPair = l.length := by omega
    rw [hlen]
    intro i hi
    by_cases hil : i = l.length
    · subst hil
      simp
    · rw [update_of_ne hil]
      have hget : (l ++ [e])[i]? = l[i]? := by
        rcases Nat.lt_or_gt_of_ne hil with hlt | hgt
        · exact List.getElem?_append_left hlt
        · rw [List.getElem?_eq_none (by simp; omega), List.getElem?_eq_none hgt.le]
      rw [hget]
      exact h i hi
  · intro i hi
    rw [List.getElem?_append_left (by omega)]
    exact h i hi

/-- The first loop of `kill` has come to an empty pair, or to one of init that is copied to
where it is. -/
def Critical.Spares (s : Tables) : Critical → Prop
  | .toInit q i k => i < nLogPair → ((s.proc q).sysclog i).callno = 0 ∨ q = s.initproc ∧ k = i
  | _ => True

instance (s : Tables) (c : Critical) : Decidable (c.Spares s) :=
  match c with
  | .toInit _ _ _ => inferInstanceAs (Decidable (_ → _))
  | .toRecord _ _ _ _ | .listProc _ | .listPair _ _ => .isTrue trivial

def Spares (s : System) : Event → Prop
  | .advance => ∀ x ∈ s.critical, x.2.Spares s.tables
  | _ => True

instance (s : System) (e : Event) : Decidable (Spares s e) :=
  match e with
  | .advance => inferInstanceAs (Decidable (∀ x ∈ s.critical, x.2.Spares s.tables))
  | .enter _ _ | .ret _ _ | .alloc _ | .fail _ _ | .start _ _ | .exit _ | .reap _ _ | .kill _ _
  | .print _ | .printTerminated _ => .isTrue trivial

theorem Advance.proc_eq {s u : Tables} {c : Critical} {next : Option Critical}
    (h : Advance s c next u) (hc : c.Spares s) : u.proc = s.proc := by
  cases h with
  | copy hi hpair =>
    obtain ⟨rfl, rfl⟩ := (hc hi).resolve_left hpair
    rw [update_eq_self, setLog_self]
  | list hnext hu =>
    obtain ⟨lines, rfl⟩ := hu
    rfl
  | _ => rfl

structure Faithful (s : System) : Prop where
  lists : ∀ p, (s.tables.proc p).phase = .live →
    Lists (s.tables.proc p).sysclog (s.completed p)
  numbers : ∀ p, (s.tables.proc p).phase = .live → ∀ e ∈ s.completed p, e.callno ≠ 0
  calls : ∀ p c, s.call p = some c → c.npair = min (s.completed p).length nLogPair

namespace Faithful

theorem boot (initproc : Slot) : Faithful (boot initproc) := by
  refine ⟨fun p _ => lists_nil fun i _ => ?_, by simp [SyscallLog.boot],
    by simp [SyscallLog.boot]⟩
  simp only [SyscallLog.boot]
  split_ifs <;> rfl

variable (h : Faithful s)
include h

theorem of_log (hcompleted : t.completed = s.completed)
    (hproc : ∀ p, (t.tables.proc p).phase = .live →
      (s.tables.proc p).phase = .live ∧ (t.tables.proc p).sysclog = (s.tables.proc p).sysclog)
    (hcall : ∀ p c, t.call p = some c → s.call p = some c) : Faithful t := by
  refine ⟨fun p hp => ?_, fun p hp => ?_, fun p c hc => ?_⟩
  · obtain ⟨hlive, hlog⟩ := hproc p hp
    rw [hlog, hcompleted]
    exact h.lists p hlive
  · rw [hcompleted]
    exact h.numbers p (hproc p hp).1
  · rw [hcompleted]
    exact h.calls p c (hcall p c hc)

theorem ret (hshape : Shape s) {c : Call} {retval : BitVec 32} (hc : s.call p = some c) :
    Faithful { s with
      tables := if c.npair < nLogPair then
          s.tables.setLog p (update (s.tables.proc p).sysclog c.npair ⟨c.num, retval⟩)
        else s.tables
      call := update s.call p none
      completed := update s.completed p (s.completed p ++ [⟨c.num, retval⟩]) } := by
  obtain ⟨hlive, hnum, -⟩ := hshape.calls p c hc
  set u : Tables := if c.npair < nLogPair then
      s.tables.setLog p (update (s.tables.proc p).sysclog c.npair ⟨c.num, retval⟩)
    else s.tables with hu
  have hother : ∀ q ≠ p, u.proc q = s.tables.proc q := by
    intro q hq
    rw [hu]
    split_ifs
    · exact setLog_proc_of_ne _ _ hq
    · rfl
  have hself : Lists (u.proc p).sysclog (s.completed p ++ [⟨c.num, retval⟩]) := by
    have hlists := (h.lists p hlive).concat ⟨c.num, retval⟩
    rw [← h.calls p c hc] at hlists
    rw [hu]
    split_ifs with hlt
    · rw [setLog_proc_self]
      rwa [if_pos hlt] at hlists
    · rwa [if_neg hlt] at hlists
  refine ⟨fun q hq => ?_, fun q hq e he => ?_, fun q c' hc' => ?_⟩
  · by_cases hqp : q = p
    · subst hqp
      simpa using hself
    · simp only [update_of_ne hqp, hother q hqp] at hq ⊢
      exact h.lists q hq
  · by_cases hqp : q = p
    · subst hqp
      simp only [update_self, List.mem_append, List.mem_singleton] at he
      rcases he with he | rfl
      · exact h.numbers q hlive e he
      · exact hnum
    · simp only [update_of_ne hqp, hother q hqp] at hq he
      exact h.numbers q hq e he
  · by_cases hqp : q = p
    · subst hqp
      simp at hc'
    · simp only [update_of_ne hqp] at hc' ⊢
      exact h.calls q c' hc'

theorem start (hshape : Shape s) {np : Slot} (hnp : (s.tables.proc np).phase ≠ .live) :
    Faithful (s.start np) := by
  refine ⟨fun q hq => ?_, fun q hq e he => ?_, fun q c hc => ?_⟩
  · by_cases hqn : q = np
    · subst hqn
      have hempty : Lists (fun _ => ⟨0, 0⟩) [] := lists_nil fun _ _ => rfl
      simpa [System.start, Tables.setProc] using hempty
    · simp only [System.start, Tables.setProc, update_of_ne hqn] at hq ⊢
      exact h.lists q hq
  · by_cases hqn : q = np
    · subst hqn
      simp [System.start] at he
    · simp only [System.start, Tables.setProc, update_of_ne hqn] at hq he
      exact h.numbers q hq e he
  · have hqn : q ≠ np := by
      rintro rfl
      exact hnp (hshape.calls q c hc).1
    simp only [System.start, update_of_ne hqn]
    exact h.calls q c hc

theorem exit {u : Tables} {exited : List Exited} (hproc : u.proc = s.tables.proc) :
    Faithful { s with
      tables := u.setProc p fun x => { x with phase := .zombie }
      fault := fault
      call := update s.call p none
      exited := exited } := by
  refine h.of_log rfl (fun q hq => ?_) fun q c hc => ?_
  · by_cases hqp : q = p
    · subst hqp
      simp [Tables.setProc] at hq
    · simp only [Tables.setProc, update_of_ne hqp, hproc] at hq ⊢
      exact ⟨hq, trivial⟩
  · by_cases hqp : q = p
    · subst hqp
      simp at hc
    · simpa only [update_of_ne hqp] using hc

theorem of_proc {u : Tables} {critical : Option (Slot × Critical)}
    (hproc : u.proc = s.tables.proc) :
    Faithful { s with tables := u, critical := critical, fault := fault } :=
  h.of_log rfl (fun p hp => by simp only [hproc] at hp ⊢; exact ⟨hp, trivial⟩) fun _ _ => id

theorem step (hshape : Shape s) {e : Event} (hspares : Spares s e)
    (hstep : SyscallLog.step s e = some t) : Faithful t := by
  cases hshape.change hstep with
  | unknown p num ht => exact ht ▸ h
  | enter p num hlive hnum ht =>
    subst ht
    refine ⟨h.lists, h.numbers, fun q c hc => ?_⟩
    by_cases hqp : q = p
    · subst hqp
      simp only [update_self] at hc
      cases hc
      dsimp only
      exact (h.lists q hlive).used_eq (h.numbers q hlive) (hshape.contiguous q)
    · simp only [update_of_ne hqp] at hc
      exact h.calls q c hc
  | ret p c retval hc ht => exact ht ▸ h.ret hshape hc
  | place _ p q x nextpid ht hq hx =>
    subst ht
    refine h.of_log rfl (fun r hr => ?_) fun _ _ => id
    by_cases hrq : r = q
    · subst hrq
      simp only [update_self] at hr
      exact absurd hr hx.1
    · simp only [update_of_ne hrq] at hr ⊢
      exact ⟨hr, trivial⟩
  | overrun p ht => exact ht ▸ ⟨h.lists, h.numbers, h.calls⟩
  | start p np hfree hnp ht => exact ht ▸ h.start hshape hnp
  | exit p n hlive hp hn ht => exact ht ▸ h.exit rfl
  | exitFault p a hlive hp hfull ht => exact ht ▸ h.exit rfl
  | killNone p pid ht => exact ht ▸ h
  | enterLoop _ p c hc ht => exact ht ▸ h.of_proc rfl
  | advance p c next u hc hnext ht => exact ht ▸ h.of_proc (hnext.proc_eq (hspares _ hc))
  | advanceFault p c u a hc hbad hu ht =>
    obtain ⟨lines, rfl⟩ := hu
    exact ht ▸ h.of_proc rfl
  | terminated p u hu ht =>
    obtain ⟨lines, rfl⟩ := hu
    exact ht ▸ h.of_proc rfl
  | terminatedFault p u a hu hnames ht =>
    obtain ⟨lines, rfl⟩ := hu
    exact ht ▸ h.of_proc rfl

end Faithful

/-- In every run in which the first loop of `kill` comes only to empty pairs, or to pairs of init
that it copies to where they are, the log of every live process holds the calls that the process
has completed, in order and from index 0 on, up to `NLOGPAIR` of them, followed by empty pairs. -/
theorem log_faithful {initproc : Slot} {es : List Event}
    (hrun : run step (boot initproc) es = some s) (hmeets : Meets step Spares (boot initproc) es)
    (p : Slot) (hp : (s.tables.proc p).phase = .live) :
    ∀ i < nLogPair,
      (∀ e, (s.completed p)[i]? = some e → (s.tables.proc p).sysclog i = e) ∧
        ((s.completed p)[i]? = none → ((s.tables.proc p).sysclog i).callno = 0) := by
  have hall : Shape s ∧ Faithful s := by
    refine hmeets.invariant (I := fun s => Shape s ∧ Faithful s) ?_ ?_ hrun
    · exact ⟨Shape.boot initproc, Faithful.boot initproc⟩
    · rintro t e u ⟨hshape, hfaithful⟩ hspares hstep
      exact ⟨hshape.step hstep, hfaithful.step hshape hspares hstep⟩
  exact hall.2.lists p hp

def killChild : List Event :=
  [.enter 0 sysFork, .alloc 0, .start 0 1, .ret 0 2, .enter 1 11, .ret 1 2, .enter 0 sysKill,
    .kill 0 2] ++ List.replicate (2 * nLogPair + 2) .advance

def killIdleChild : List Event :=
  [.enter 0 sysFork, .alloc 0, .start 0 1, .ret 0 2, .enter 0 sysKill, .kill 0 2] ++
    List.replicate (2 * nLogPair + 2) .advance ++ [.ret 0 0]

theorem log_faithful_killIdleChild :
    ∃ s, run step (boot 0) killIdleChild = some s ∧
      (s.tables.proc 0).sysclog 0 = ⟨sysFork, 2⟩ ∧ (s.tables.proc 0).sysclog 1 = ⟨sysKill, 0⟩ := by
  obtain ⟨s, hs, hlive, hcalls⟩ : ∃ s, run step (boot 0) killIdleChild = some s ∧
      (s.tables.proc 0).phase = .live ∧ s.completed 0 = [⟨sysFork, 2⟩, ⟨sysKill, 0⟩] := by
    decide +kernel
  have hmeets : Meets step Spares (boot 0) killIdleChild := by decide +kernel
  have hlog := log_faithful hs hmeets 0 hlive
  rw [hcalls] at hlog
  exact ⟨s, hs, (hlog 0 (by decide)).1 _ rfl, (hlog 1 (by decide)).1 _ rfl⟩

/-- Init has completed only its `fork`, but its log shows the child's `getpid`. -/
theorem kill_overwrites_init_log :
    ∃ s, run step (boot 0) killChild = some s ∧ s.fault = none ∧
      (s.tables.proc 0).phase = .live ∧ s.completed 0 = [⟨sysFork, 2⟩] ∧
      (s.tables.proc 0).sysclog 0 = ⟨11, 2⟩ := by
  decide +kernel

end Xv6.SyscallLog
