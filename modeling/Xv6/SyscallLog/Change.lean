import Xv6.SyscallLog.Specs

/-!
# What a step does to the logs

`Change` lists what each event can do, once the pairs in use of every log come first.
`Shape` says so, together with what is known of the calls and of the loop under way, and every
step keeps it: a call under way has found a pair that is at most the first empty one, and while
a loop is under way no pair goes out of use.
-/

namespace Xv6.SyscallLog

open Gather Routine Function Option

variable {s t : System} {p q : Slot} {e : Event} {fault : Option Access}

structure Shape (s : System) : Prop where
  contiguous : ∀ q, Contiguous (s.tables.proc q).sysclog
  calls : ∀ p c, s.call p = some c → (s.tables.proc p).phase = .live ∧ c.num ≠ 0 ∧
    c.npair ≤ used (s.tables.proc p).sysclog
  init : (s.tables.proc s.tables.initproc).phase = .live
  critical : ∀ p c, s.critical = some (p, c) → c.Fits s.tables

inductive Change (s t : System) : Event → Prop where
  | unknown (p : Slot) (num : BitVec 32) (ht : t = s) : Change s t (.enter p num)
  | enter (p : Slot) (num : BitVec 32) (hlive : (s.tables.proc p).phase = .live) (hnum : num ≠ 0)
      (ht : t = { s with
        call := update s.call p (some ⟨num, used (s.tables.proc p).sysclog⟩) }) :
      Change s t (.enter p num)
  | ret (p : Slot) (c : Call) (retval : BitVec 32) (hc : s.call p = some c)
      (ht : t = { s with
        tables := if c.npair < nLogPair then
            s.tables.setLog p (update (s.tables.proc p).sysclog c.npair ⟨c.num, retval⟩)
          else s.tables
        call := update s.call p none
        completed := update s.completed p (s.completed p ++ [⟨c.num, retval⟩]) }) :
      Change s t (.ret p retval)
  /-- A slot without a process, or with a dead one, changes hands. -/
  | place (e : Event) (p q : Slot) (x : Proc) (nextpid : BitVec 32)
      (ht : t = { s with tables := { s.tables with
        proc := update s.tables.proc q x
        nextpid := nextpid } })
      (hq : (s.tables.proc q).phase ≠ .live)
      (hx : x.phase ≠ .live ∧ x.sysclog = (s.tables.proc q).sysclog)
      (he : e = .alloc p ∨ e = .fail p q ∨ e = .reap p q) : Change s t e
  | overrun (p : Slot) (ht : t = { s with overrun := true }) : Change s t (.alloc p)
  | start (p np : Slot) (hfree : s.critical = none) (hnp : (s.tables.proc np).phase ≠ .live)
      (ht : t = s.start np) : Change s t (.start p np)
  | exit (p : Slot) (n : ℕ) (hlive : (s.tables.proc p).phase = .live)
      (hp : p ≠ s.tables.initproc) (hn : s.tables.FreeAt n)
      (ht : t = { s with
        tables := (s.tables.setRecord n ⟨(s.tables.proc p).pid,
            into Entry.inUse (s.tables.proc p).sysclog (s.tables.pptable n).sysclog 0
              nLogPair⟩).setProc p fun x => { x with phase := .zombie }
        call := update s.call p none
        exited := s.exited ++
          [⟨(s.tables.proc p).pid, (s.tables.proc p).sysclog, s.completed p⟩] }) :
      Change s t (.exit p)
  | exitFault (p : Slot) (a : Access) (hlive : (s.tables.proc p).phase = .live)
      (hp : p ≠ s.tables.initproc) (hfull : s.tables.Full)
      (ht : t = { s with
        tables := s.tables.setProc p fun x => { x with phase := .zombie }
        fault := some a
        call := update s.call p none
        exited := s.exited ++
          [⟨(s.tables.proc p).pid, (s.tables.proc p).sysclog, s.completed p⟩] }) :
      Change s t (.exit p)
  | killNone (p : Slot) (pid : BitVec 32) (ht : t = s) : Change s t (.kill p pid)
  /-- `kill` has found a process, or `print_syscalls` begins. -/
  | enterLoop (e : Event) (p : Slot) (c : Critical) (hc : c.Fits s.tables)
      (ht : t = { s with critical := some (p, c) })
      (he : (∃ pid, e = .kill p pid) ∨ e = .print p) : Change s t e
  | advance (p : Slot) (c : Critical) (next : Option Critical) (u : Tables)
      (hc : s.critical = some (p, c)) (hnext : Advance s.tables c next u)
      (ht : t = { s with tables := u, critical := next.map (Prod.mk p) }) : Change s t .advance
  | advanceFault (p : Slot) (c : Critical) (u : Tables) (a : Access)
      (hc : s.critical = some (p, c)) (hbad : c.Strays s.tables) (hu : Printed s.tables u)
      (ht : t = { s with tables := u, fault := some a }) : Change s t .advance
  | terminated (p : Slot) (u : Tables) (hu : Printed s.tables u)
      (ht : t = { s with tables := u }) : Change s t (.printTerminated p)
  | terminatedFault (p : Slot) (u : Tables) (a : Access) (hu : Printed s.tables u)
      (hnames : ¬ s.tables.Printable) (ht : t = { s with tables := u, fault := some a }) :
      Change s t (.printTerminated p)

theorem exec_cases {α : Type} {x : Kernel α} {Q E : Tables → Prop} (hs : s.fault = none)
    (h : wp x (fun _ u => Q u) (fun _ u => E u) s.tables) :
    (∃ u, Q u ∧ s.exec x = { s with tables := u }) ∨
      ∃ u a, E u ∧ s.exec x = { s with tables := u, fault := some a } := by
  unfold System.exec
  rcases hx : x s.tables with ⟨r, u⟩
  cases r with
  | ok v =>
    refine .inl ⟨u, by simpa only [wp, hx] using h, ?_⟩
    rw [← hs]
  | error a => exact .inr ⟨u, a, by simpa only [wp, hx] using h, rfl⟩

theorem ne_zero_of_recognised {num : BitVec 32} (h : recognised num = true) : num ≠ 0 := by
  rintro rfl
  cases h

theorem logCall_eq (s : Tables) (p : Slot) (c : Call) (retval : BitVec 32) :
    logCall p c retval s = (.ok (), if c.npair < nLogPair then
      s.setLog p (update (s.proc p).sysclog c.npair ⟨c.num, retval⟩) else s) := by
  unfold logCall
  split_ifs with hlt
  · simp only [writeLog, hlt, if_true]
    rfl
  · rfl

theorem fault_eq_none (hstep : step s e = some t) : s.fault = none := by
  obtain ⟨hfault, -⟩ := ite_none_left_eq_some.1 hstep
  by_contra hne
  exact hfault (.inl (isSome_iff_ne_none.2 hne))

/-- No pair goes out of use. -/
def Tables.Grows (s t : Tables) : Prop :=
  t.initproc = s.initproc ∧
    ∀ q i, ((s.proc q).sysclog i).inUse = true → ((t.proc q).sysclog i).inUse = true

theorem Critical.Fits.grow {s t : Tables} {c : Critical} (h : c.Fits s) (hst : s.Grows t) :
    c.Fits t := by
  have hkept : ∀ q n, kept Entry.inUse (s.proc q).sysclog n ≤
      kept Entry.inUse (t.proc q).sysclog n := fun q n => kept_le_kept fun i _ => hst.2 q i
  cases c with
  | toInit q i k =>
    refine ⟨h.1, h.2.1.trans (hkept q i), ?_⟩
    rw [hst.1]
    exact h.2.2.trans (hkept _ _)
  | toRecord q n i k => exact ⟨h.1, h.2.trans (Nat.add_le_add (hkept q _) (hkept q i))⟩
  | listProc q => trivial
  | listPair q i => trivial

theorem grows_setLog (s : Tables) (q : Slot) (k : ℕ) {e : Entry} (he : e.callno ≠ 0) :
    s.Grows (s.setLog q (update (s.proc q).sysclog k e)) := by
  refine ⟨rfl, fun r i hi => ?_⟩
  by_cases hr : r = q
  · subst hr
    by_cases hik : i = k
    · simpa [hik] using Entry.inUse_iff.2 he
    · simpa [hik] using hi
  · rwa [setLog_proc_of_ne _ _ hr]

namespace Shape

theorem phase_of_unused {np : Slot} (h : s.tables.unused = some np) :
    (s.tables.proc np).phase = .unused := by
  simpa using List.find?_some h

theorem change_enter (h : Shape s) (hlive : (s.tables.proc p).phase = .live)
    (num : BitVec 32) : Change s (s.enter p num) (.enter p num) := by
  simp only [System.enter, findPair_eq (h.contiguous p)]
  split_ifs with hnum
  · exact .enter p num hlive (ne_zero_of_recognised hnum) rfl
  · exact .unknown p num rfl

theorem change_ret (hs : s.fault = none) {c : Call} (hc : s.call p = some c)
    (retval : BitVec 32) : Change s (s.ret p c retval) (.ret p retval) := by
  refine .ret p c retval hc ?_
  simp only [System.ret, System.exec, logCall_eq]
  rw [← hs]

theorem change_alloc : Change s s.alloc (.alloc p) := by
  unfold System.alloc
  split
  case h_1 np hnp =>
    refine .place _ p np _ _ rfl ?_ ⟨by simp, rfl⟩ (.inl rfl)
    rw [phase_of_unused hnp]
    simp
  case h_2 => exact .overrun p rfl

theorem change_exit (hs : s.fault = none) (hlive : (s.tables.proc p).phase = .live)
    (hp : p ≠ s.tables.initproc) : Change s (s.exit p) (.exit p) := by
  rcases exec_cases hs (wp_exitLog (s := s.tables) (p := p)) with
    ⟨u, ⟨n, hn, rfl⟩, hexec⟩ | ⟨u, a, ⟨hfull, rfl⟩, hexec⟩
  · refine .exit p n hlive hp hn ?_
    simp only [System.exit, hexec]
  · refine .exitFault p a hlive hp hfull ?_
    simp only [System.exit, hexec]

theorem change_kill (pid : BitVec 32) : Change s (s.kill p pid) (.kill p pid) := by
  unfold System.kill
  split
  case h_1 q hq =>
    exact .enterLoop _ p (.toInit q 0 0) ⟨Nat.zero_le _, Nat.le_refl _, Nat.zero_le _⟩ rfl
      (.inl ⟨pid, rfl⟩)
  case h_2 => exact .killNone p pid rfl

theorem change_advance (h : Shape s) {c : Critical} (hc : s.critical = some (p, c)) :
    Change s (s.advance p c) .advance := by
  have hnext := wp_next (h.critical p c hc)
  unfold System.advance
  rcases hx : c.next s.tables with ⟨r, u⟩
  cases r with
  | ok next => exact .advance p c next u hc (by simpa only [wp, hx] using hnext) rfl
  | error a =>
    obtain ⟨hbad, hu⟩ : c.Strays s.tables ∧ Printed s.tables u := by
      simpa only [wp, hx] using hnext
    exact .advanceFault p c u a hc hbad hu rfl

theorem change_terminated (hs : s.fault = none) :
    Change s (s.exec printTerminated) (.printTerminated p) := by
  rcases exec_cases hs (wp_printTerminated (s := s.tables)) with
    ⟨u, ⟨hu, -⟩, hexec⟩ | ⟨u, a, ⟨hu, hnames⟩, hexec⟩
  · exact .terminated p u hu hexec
  · exact .terminatedFault p u a hu hnames hexec

theorem change (h : Shape s) (hstep : step s e = some t) : Change s t e := by
  have hs := fault_eq_none hstep
  obtain ⟨-, hstep⟩ := ite_none_left_eq_some.1 hstep
  cases e with
  | enter p num =>
    obtain ⟨⟨hlive, -⟩, rfl⟩ := ite_some_none_eq_some.1 hstep
    exact h.change_enter hlive num
  | ret p retval =>
    obtain ⟨-, hstep⟩ := ite_none_left_eq_some.1 hstep
    obtain ⟨c, hc, rfl⟩ := map_eq_some_iff.1 hstep
    exact change_ret hs hc retval
  | alloc p =>
    obtain ⟨-, rfl⟩ := ite_some_none_eq_some.1 hstep
    exact change_alloc
  | fail p np =>
    obtain ⟨⟨-, hnp⟩, rfl⟩ := ite_some_none_eq_some.1 hstep
    exact .place _ p np _ _ rfl (by simp [hnp]) ⟨by simp, rfl⟩ (.inr (.inl rfl))
  | start p np =>
    obtain ⟨⟨hfree, -, hnp⟩, rfl⟩ := ite_some_none_eq_some.1 hstep
    exact .start p np (isNone_iff_eq_none.1 hfree) (by simp [hnp]) rfl
  | exit p =>
    obtain ⟨⟨-, hlive, hp, -⟩, rfl⟩ := ite_some_none_eq_some.1 hstep
    exact change_exit hs hlive hp
  | reap p q =>
    obtain ⟨⟨-, -, hq⟩, rfl⟩ := ite_some_none_eq_some.1 hstep
    exact .place _ p q _ _ rfl (by simp [hq]) ⟨by simp, rfl⟩ (.inr (.inr rfl))
  | kill p pid =>
    obtain ⟨-, rfl⟩ := ite_some_none_eq_some.1 hstep
    exact change_kill pid
  | print p =>
    obtain ⟨-, rfl⟩ := ite_some_none_eq_some.1 hstep
    exact .enterLoop _ p (.listProc 0) trivial rfl (.inr rfl)
  | advance =>
    obtain ⟨⟨p, c⟩, hc, rfl⟩ := map_eq_some_iff.1 hstep
    exact h.change_advance hc
  | printTerminated p =>
    obtain ⟨-, rfl⟩ := ite_some_none_eq_some.1 hstep
    exact change_terminated hs

theorem boot (initproc : Slot) : Shape (boot initproc) := by
  refine ⟨fun q => (contiguous_of_empty fun i _ => ?_).1, by simp [SyscallLog.boot], ?_,
    by simp [SyscallLog.boot]⟩
  · simp only [SyscallLog.boot]
    split_ifs <;> rfl
  · simp [SyscallLog.boot]

theorem of_log (h : Shape s) (hlog : ∀ q, (t.tables.proc q).sysclog = (s.tables.proc q).sysclog)
    (hinitproc : t.tables.initproc = s.tables.initproc)
    (hcall : ∀ p c, t.call p = some c → s.call p = some c ∧ (t.tables.proc p).phase = .live)
    (hinit : (t.tables.proc t.tables.initproc).phase = .live)
    (hcritical : ∀ p c, t.critical = some (p, c) → c.Fits s.tables) : Shape t := by
  refine ⟨fun q => ?_, fun p c hc => ?_, hinit, fun p c hc => (hcritical p c hc).grow ?_⟩
  · rw [hlog]
    exact h.contiguous q
  · obtain ⟨hc, hlive⟩ := hcall p c hc
    obtain ⟨-, hnum, hle⟩ := h.calls p c hc
    rw [hlog]
    exact ⟨hlive, hnum, hle⟩
  · exact ⟨hinitproc, fun q i hi => by rwa [hlog]⟩

theorem of_proc (h : Shape s) {u : Tables} {critical : Option (Slot × Critical)}
    (hproc : u.proc = s.tables.proc) (hinitproc : u.initproc = s.tables.initproc)
    (hcritical : ∀ p c, critical = some (p, c) → c.Fits s.tables) :
    Shape { s with tables := u, critical := critical, fault := fault } := by
  refine h.of_log (fun q => by rw [hproc]) hinitproc (fun p c hc => ⟨hc, ?_⟩) ?_ hcritical
  · simpa only [hproc] using (h.calls p c hc).1
  · simpa only [hproc, hinitproc] using h.init

theorem place (h : Shape s) {x : Proc} {nextpid : BitVec 32} (hq : (s.tables.proc q).phase ≠ .live)
    (hx : x.phase ≠ .live ∧ x.sysclog = (s.tables.proc q).sysclog) :
    Shape { s with tables := { s.tables with
      proc := update s.tables.proc q x
      nextpid := nextpid } } := by
  have hne : ∀ p, (s.tables.proc p).phase = .live → p ≠ q := by
    rintro p hp rfl
    exact hq hp
  refine h.of_log (fun r => ?_) rfl (fun p c hc => ⟨hc, ?_⟩) ?_ h.critical
  · by_cases hr : r = q
    · subst hr
      simpa using hx.2
    · simp [hr]
  · have hlive := (h.calls p c hc).1
    simpa [hne p hlive] using hlive
  · simpa [hne _ h.init] using h.init

theorem start (h : Shape s) {np : Slot} (hfree : s.critical = none)
    (hnp : (s.tables.proc np).phase ≠ .live) : Shape (s.start np) := by
  have hne : ∀ p, (s.tables.proc p).phase = .live → p ≠ np := by
    rintro p hp rfl
    exact hnp hp
  refine ⟨fun q => ?_, fun p c hc => ?_, ?_, by simp [System.start, hfree]⟩
  · by_cases hq : q = np
    · subst hq
      refine (contiguous_of_empty fun i _ => ?_).1
      simp [System.start, Tables.setProc]
    · simpa [System.start, Tables.setProc, hq] using h.contiguous q
  · have hcall := h.calls p c hc
    simpa [System.start, Tables.setProc, hne p hcall.1] using hcall
  · simpa [System.start, Tables.setProc, hne _ h.init] using h.init

theorem exit (h : Shape s) {u : Tables} {exited : List Exited} (hproc : u.proc = s.tables.proc)
    (hinit : u.initproc = s.tables.initproc) (hp : p ≠ s.tables.initproc) :
    Shape { s with
      tables := u.setProc p fun x => { x with phase := .zombie }
      fault := fault
      call := update s.call p none
      exited := exited } := by
  refine h.of_log (fun q => ?_) hinit (fun q c hc => ?_) ?_ h.critical
  · by_cases hq : q = p
    · subst hq
      simp [Tables.setProc, hproc]
    · simp [Tables.setProc, hproc, hq]
  · by_cases hq : q = p
    · subst hq
      simp at hc
    · simp only [update_of_ne hq] at hc
      exact ⟨hc, by simpa [Tables.setProc, hproc, hq] using (h.calls q c hc).1⟩
  · simpa [Tables.setProc, hproc, hinit, hp.symm] using h.init

theorem contiguous_update {log : Log} {k : ℕ} {e : Entry} (h : Contiguous log)
    (hk : k ≤ used log) (he : e.callno ≠ 0) : Contiguous (update log k e) := by
  intro i hi hin j hj
  by_cases hjk : j = k
  · subst hjk
    simpa using Entry.inUse_iff.2 he
  · rw [update_of_ne hjk, Entry.inUse_iff]
    have hjlt := hj.trans hi
    refine (h.callno_ne_zero hjlt).2 ?_
    by_cases hik : i = k
    · exact hj.trans_le (hik.trans_le hk)
    · rw [update_of_ne hik, Entry.inUse_iff] at hin
      exact hj.trans ((h.callno_ne_zero hi).1 hin)

/-- A pair is filled in, by the process itself or by `kill`. -/
theorem store (h : Shape s) {call : Slot → Option Call} {critical : Option (Slot × Critical)}
    {completed : Slot → List Entry} {k : ℕ} {e : Entry} {u : Tables}
    (hu : u = s.tables.setLog q (update (s.tables.proc q).sysclog k e))
    (hk : k ≤ used (s.tables.proc q).sysclog) (he : e.callno ≠ 0)
    (hcall : ∀ p c, call p = some c → s.call p = some c)
    (hcritical : ∀ p c, critical = some (p, c) → c.Fits u) :
    Shape { s with tables := u, call := call, critical := critical, completed := completed } := by
  have hgrows := hu ▸ grows_setLog s.tables q k he
  have hphase : ∀ r, (u.proc r).phase = (s.tables.proc r).phase := by
    intro r
    by_cases hr : r = q
    · rw [hu, hr, setLog_proc_self]
    · rw [hu, setLog_proc_of_ne _ _ hr]
  refine ⟨fun r => ?_, fun r c hc => ?_, ?_, hcritical⟩
  · by_cases hr : r = q
    · simpa [hu, hr] using contiguous_update (h.contiguous q) hk he
    · simpa [hu, setLog_proc_of_ne _ _ hr] using h.contiguous r
  · obtain ⟨hlive, hnum, hle⟩ := h.calls r c (hcall r c hc)
    exact ⟨(hphase r).trans hlive, hnum, hle.trans (kept_le_kept fun i _ => hgrows.2 r i)⟩
  · simpa only [hphase, hgrows.1] using h.init

theorem ret (h : Shape s) {c : Call} {retval : BitVec 32} {completed : Slot → List Entry}
    (hc : s.call p = some c) :
    Shape { s with
      tables := if c.npair < nLogPair then
          s.tables.setLog p (update (s.tables.proc p).sysclog c.npair ⟨c.num, retval⟩)
        else s.tables
      call := update s.call p none
      completed := completed } := by
  obtain ⟨-, hnum, hle⟩ := h.calls p c hc
  have hcall : ∀ q c', update s.call p none q = some c' → s.call q = some c' := by
    intro q c' hc'
    by_cases hq : q = p
    · subst hq
      simp at hc'
    · rwa [update_of_ne hq] at hc'
  split_ifs with hlt
  · exact h.store rfl hle hnum hcall fun q d hd =>
      (h.critical q d hd).grow (grows_setLog s.tables p c.npair hnum)
  · exact h.of_log (fun _ => rfl) rfl (fun q c' hc' => ⟨hcall q c' hc',
      (h.calls q c' (hcall q c' hc')).1⟩) h.init h.critical

theorem advance (h : Shape s) {c : Critical} {next : Option Critical} {u : Tables}
    (hc : c.Fits s.tables) (hnext : Advance s.tables c next u) :
    Shape { s with tables := u, critical := next.map (Prod.mk p) } := by
  have hfits : ∀ {d : Critical} {v : Tables}, d.Fits v →
      ∀ r e, (some d).map (Prod.mk p) = some (r, e) → e.Fits v := by
    rintro d v hd r e ⟨⟩
    exact hd
  cases hnext with
  | pass hi =>
    exact h.of_proc rfl rfl (hfits ⟨hi, hc.2.1.trans (kept_mono (Nat.le_succ _)), hc.2.2⟩)
  | @copy q i k hi hpair =>
    obtain ⟨-, hk, hinit⟩ := hc
    have hlt : k < nLogPair := (hk.trans (kept_le i)).trans_lt hi
    have hgrows := grows_setLog s.tables s.tables.initproc k hpair
    have hkept : k + 1 ≤ kept Entry.inUse (s.tables.proc q).sysclog (i + 1) := by
      rw [kept_succ_of_keep (Entry.inUse_iff.2 hpair)]
      exact Nat.succ_le_succ hk
    refine h.store rfl hinit hpair (fun _ _ => id)
      (hfits ⟨hi, hkept.trans (kept_le_kept fun j _ => hgrows.2 q j), ?_⟩)
    have hcont := contiguous_update (h.contiguous s.tables.initproc) hinit hpair
    have hused := (hcont.callno_ne_zero hlt).1 (by rwa [update_self])
    rw [hgrows.1, setLog_proc_self]
    exact hused
  | @take q i k n hi hn =>
    refine h.of_proc rfl rfl (hfits ⟨hn.1, ?_⟩)
    exact (hc.2.1.trans (kept_mono hc.1)).trans (Nat.le_add_right _ _)
  | passRecord =>
    exact h.of_proc rfl rfl (hfits ⟨hc.1, hc.2.trans
      (Nat.add_le_add_left (kept_mono (Nat.le_succ _)) _)⟩)
  | copyRecord hi hpair =>
    refine h.of_proc rfl rfl (hfits ⟨hc.1, ?_⟩)
    rw [kept_succ_of_keep (Entry.inUse_iff.2 hpair)]
    exact Nat.succ_le_succ hc.2
  | leave => exact h.of_proc rfl rfl (by simp)
  | list hnext hu =>
    obtain ⟨lines, rfl⟩ := hu
    refine h.of_proc rfl rfl fun r e he => ?_
    obtain ⟨d, hd, heq⟩ := map_eq_some_iff.1 he
    cases heq
    exact hnext _ hd _

theorem step (h : Shape s) (hstep : SyscallLog.step s e = some t) : Shape t := by
  cases h.change hstep with
  | unknown p num ht => exact ht ▸ h
  | enter p num hlive hnum ht =>
    subst ht
    refine ⟨h.contiguous, fun r c hc => ?_, h.init, h.critical⟩
    by_cases hr : r = p
    · subst hr
      simp only [update_self] at hc
      cases hc
      refine ⟨hlive, hnum, ?_⟩
      dsimp only
      exact Nat.le_refl _
    · simp only [update_of_ne hr] at hc
      exact h.calls r c hc
  | ret p c retval hc ht => exact ht ▸ h.ret hc
  | place _ p q x nextpid ht hq hx => exact ht ▸ h.place hq hx
  | overrun p ht => exact ht ▸ { h with }
  | start p np hfree hnp ht => exact ht ▸ h.start hfree hnp
  | exit p n hlive hp hn ht => exact ht ▸ h.exit rfl rfl hp
  | exitFault p a hlive hp hfull ht => exact ht ▸ h.exit rfl rfl hp
  | killNone p pid ht => exact ht ▸ h
  | enterLoop _ p c hc ht =>
    subst ht
    refine h.of_proc rfl rfl fun r d hd => ?_
    cases hd
    exact hc
  | advance p c next u hc hnext ht => exact ht ▸ h.advance (h.critical p c hc) hnext
  | advanceFault p c u a hc hbad hu ht =>
    obtain ⟨lines, rfl⟩ := hu
    exact ht ▸ h.of_proc rfl rfl h.critical
  | terminated p u hu ht =>
    obtain ⟨lines, rfl⟩ := hu
    exact ht ▸ h.of_proc rfl rfl h.critical
  | terminatedFault p u a hu hnames ht =>
    obtain ⟨lines, rfl⟩ := hu
    exact ht ▸ h.of_proc rfl rfl h.critical

end Shape

end Xv6.SyscallLog
