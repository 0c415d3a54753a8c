import Xv6.SyscallLog.Model

/-!
# What the logging routines do

One specification for each routine, on both ways out, and one for a round of the loops that
others run beside. The pairs of a log that are in use are those with `callno` not 0; where
they come first, as they do in every log, `exit` copies them one for one.
-/

namespace Xv6.SyscallLog

open Routine Gather Nat Tables

variable {s : Tables} {p : Slot} {log : Log} {i n k : ℕ} {t : Tables}

def Entry.inUse (e : Entry) : Bool := e.callno ≠ 0

theorem Entry.inUse_iff {e : Entry} : e.inUse = true ↔ e.callno ≠ 0 := by
  simp [Entry.inUse]

theorem Entry.inUse_eq_false {e : Entry} : e.inUse = false ↔ e.callno = 0 := by
  simp [Entry.inUse]

def used (log : Log) : ℕ := kept Entry.inUse log nLogPair

theorem used_le (log : Log) : used log ≤ nLogPair := kept_le nLogPair

def Contiguous (log : Log) : Prop := Packed Entry.inUse log nLogPair

theorem Contiguous.callno_ne_zero (h : Contiguous log) (hi : i < nLogPair) :
    (log i).callno ≠ 0 ↔ i < used log := by
  rw [← Entry.inUse_iff]
  exact h.keep_iff hi

theorem Contiguous.into_eq (h : Contiguous log) (dst : Log) (i : ℕ) :
    into Entry.inUse log dst 0 nLogPair i = if i < used log then log i else dst i :=
  Packed.into_eq h dst i

theorem contiguous_of_empty (h : ∀ i < nLogPair, (log i).callno = 0) :
    Contiguous log ∧ used log = 0 := by
  refine ⟨fun i hi hk => absurd (h i hi) (Entry.inUse_iff.1 hk), ?_⟩
  refine List.countP_eq_zero.2 fun i hi => ?_
  simpa [Entry.inUse] using h i (List.mem_range.1 hi)

@[simp] theorem setLog_proc_self (s : Tables) (p : Slot) (log : Log) :
    (s.setLog p log).proc p = { s.proc p with sysclog := log } := by
  simp [setLog, setProc]

theorem setLog_proc_of_ne {q : Slot} (s : Tables) (log : Log) (h : q ≠ p) :
    (s.setLog p log).proc q = s.proc q := by
  simp [setLog, setProc, h]

theorem setLog_self (s : Tables) (p : Slot) : s.setLog p (s.proc p).sysclog = s := by
  simp [setLog, setProc]

theorem setRecord_setRecord (s : Tables) (n : ℕ) (r r' : Record) :
    (s.setRecord n r).setRecord n r' = s.setRecord n r' := by
  simp [setRecord]

theorem setRecord_self (s : Tables) (n : ℕ) : s.setRecord n (s.pptable n) = s := by
  simp [setRecord]

/-! ## The searches -/

theorem wp_findPair : wp (findPair p)
    (fun i t => t = s ∧ i ≤ nLogPair ∧ (∀ j < i, ((s.proc p).sysclog j).callno ≠ 0) ∧
      (i < nLogPair → ((s.proc p).sysclog i).callno = 0))
    (fun _ _ => False) s := by
  refine wp_search_look (P := fun i => ((s.proc p).sysclog i).callno = 0) fun j hj => ?_
  simp only [readLog, hj, if_true]
  rfl

theorem findPair_eq (h : Contiguous (s.proc p).sysclog) :
    findPair p s = (.ok (used (s.proc p).sysclog), s) := by
  have hwp := wp_findPair (s := s) (p := p)
  rcases hx : findPair p s with ⟨r, t⟩
  cases r with
  | error a => exact absurd hwp (by simp [wp, hx])
  | ok i =>
    obtain ⟨rfl, hle, hbefore, hfound⟩ : t = s ∧ _ := by simpa only [wp, hx] using hwp
    suffices i = used (t.proc p).sysclog by rw [this]
    apply le_antisymm
    · by_contra hlt
      rw [not_le] at hlt
      have hmem := hbefore (used (t.proc p).sysclog) hlt
      exact lt_irrefl _ ((h.callno_ne_zero (hlt.trans_le hle)).1 hmem)
    · by_contra hlt
      rw [not_le] at hlt
      have hi := hlt.trans_le (used_le _)
      exact (h.callno_ne_zero hi).2 hlt (hfound hi)

theorem wp_findRecord : wp findRecord
    (fun n t => t = s ∧ n ≤ nProc ∧ (∀ m < n, (s.pptable m).pid ≠ 0) ∧
      (n < nProc → (s.pptable n).pid = 0))
    (fun _ _ => False) s := by
  refine wp_search_look (P := fun n => (s.pptable n).pid = 0) fun m hm => ?_
  simp only [readPid, hm, if_true]
  rfl

/-! ## Records -/

def Tables.FreeAt (s : Tables) (n : ℕ) : Prop :=
  n < nProc ∧ (s.pptable n).pid = 0 ∧ ∀ m < n, (s.pptable m).pid ≠ 0

def Tables.Full (s : Tables) : Prop := ∀ n < nProc, (s.pptable n).pid ≠ 0

theorem wp_takeRecord : wp (takeRecord p) (fun n t => s.FreeAt n ∧
      t = s.setRecord n { s.pptable n with pid := (s.proc p).pid })
    (fun _ t => s.Full ∧ t = s) s := by
  rw [takeRecord, wp_bind]
  refine wp_mono_ok wp_findRecord ?_
  rintro n t ⟨rfl, hle, hbefore, hfound⟩
  simp only [wp_bind, wp_look, writePid, wp_ite, wp_update, wp_stop, wp_pure]
  refine ⟨fun hn => ⟨⟨hn, hfound hn, hbefore⟩, trivial⟩, fun hn => ⟨fun m hm => ?_, trivial⟩⟩
  exact hbefore m (hm.trans_le (not_lt.1 hn))

/-! ## Copying -/

theorem wp_copyPair {read : ℕ → Kernel Entry} {write : ℕ → Entry → Kernel Unit} {e : Entry}
    {Q : ℕ → Tables → Prop} {E : Access → Tables → Prop} (hread : read i s = (.ok e, s)) :
    wp (copyPair read write i k) Q E s ↔
      (e.callno ≠ 0 → wp (write k e) (fun _ t => Q (k + 1) t) E s) ∧ (e.callno = 0 → Q k s) := by
  rw [copyPair, wp_bind, wp, hread]
  dsimp only
  rw [wp_ite, wp_bind, not_not]
  rfl

theorem readLog_eq (s : Tables) (p : Slot) (hi : i < nLogPair) :
    readLog p i s = (.ok ((s.proc p).sysclog i), s) := by
  rw [readLog, if_pos hi]
  rfl

theorem wp_writeRecord {e : Entry} {Q : Unit → Tables → Prop} {E : Access → Tables → Prop}
    (hn : n < nProc) : wp (writeRecord n k e) Q E s ↔
      (k < nLogPair → Q () (s.setRecord n { s.pptable n with
        sysclog := Function.update (s.pptable n).sysclog k e })) ∧
      (¬ k < nLogPair → E (.sysclog k) s) := by
  simp only [writeRecord, hn, if_true, wp_ite, wp_update, wp_stop]

theorem wp_exitLog :
    wp (exitLog p) (fun _ t => ∃ n, s.FreeAt n ∧ t = s.setRecord n ⟨(s.proc p).pid,
        into Entry.inUse (s.proc p).sysclog (s.pptable n).sysclog 0 nLogPair⟩)
      (fun _ t => s.Full ∧ t = s) s := by
  rw [exitLog, wp_bind]
  refine wp_mono wp_takeRecord ?_ fun _ _ h => h
  rintro n t ⟨hn, rfl⟩
  rw [wp_bind]
  refine wp_mono_ok (wp_foldRange (I := fun i m t => m = kept Entry.inUse (s.proc p).sysclog i ∧
    t = s.setRecord n ⟨(s.proc p).pid,
      into Entry.inUse (s.proc p).sysclog (s.pptable n).sysclog 0 i⟩) ⟨rfl, rfl⟩ ?_)
    fun _ t ht => ⟨n, hn, ht.2⟩
  rintro i m t hi ⟨rfl, rfl⟩
  rw [wp_copyPair (readLog_eq _ p hi), wp_writeRecord hn.1]
  refine ⟨fun hne => ⟨fun _ => ?_, fun hle => hle ((kept_le i).trans_lt hi)⟩, fun hzero => ?_⟩
  · have hkeep : ((s.proc p).sysclog i).inUse = true := Entry.inUse_iff.2 hne
    rw [kept_succ_of_keep hkeep, into_succ_of_keep hkeep, setRecord_setRecord, zero_add]
    refine ⟨rfl, ?_⟩
    simp [setRecord]
  · have hkeep : ((s.proc p).sysclog i).inUse = false := Entry.inUse_eq_false.2 hzero
    rw [kept_succ_of_not hkeep, into_succ_of_not hkeep]
    exact ⟨rfl, rfl⟩

/-! ## print_syscalls -/

def Printed (s t : Tables) : Prop := ∃ lines, t = { s with console := lines }

theorem Printed.refl (s : Tables) : Printed s s := ⟨s.console, rfl⟩

theorem Printed.print (h : Printed s t) (line : Line) : Printed s (t.print line) := by
  obtain ⟨lines, rfl⟩ := h
  exact ⟨lines ++ [line], rfl⟩

/-- Every pair that `print_syscalls` reaches has a number that is not `SYS_ps`, the first
one without a name. -/
def Nameable (log : Log) : Prop :=
  ∀ i < nLogPair, (∀ j ≤ i, (log j).callno ≠ 0) → (log i).callno ≠ sysPs

theorem wp_printEntry (h : Printed s t) (e : Entry) :
    wp (printEntry e) (fun _ u => e.callno ≠ sysPs ∧ Printed s u)
      (fun _ u => e.callno = sysPs ∧ Printed s u) t := by
  have hlength : names.length = 27 := rfl
  have hps : e.callno = sysPs ↔ e.callno.toNat = 27 := by
    constructor
    · intro he
      rw [he]
      rfl
    · intro he
      exact BitVec.eq_of_toNat_eq he
  rw [printEntry, wp_ite]
  refine ⟨fun hlt => ?_, fun hle => ?_⟩
  · refine ⟨fun he => ?_, h.print _⟩
    rw [hps] at he
    omega
  · rw [wp_bind, readName]
    split
    case h_1 name hname =>
      have hlt := (List.getElem?_eq_some_iff.1 hname).1
      refine ⟨fun he => ?_, h.print _⟩
      rw [hps] at he
      omega
    case h_2 hname =>
      have hge := List.getElem?_eq_none_iff.1 hname
      exact ⟨hps.2 (by omega), h⟩

theorem wp_printLog (read : ℕ → Kernel Entry) (log : Log) (h : Printed s t)
    (hread : ∀ i < nLogPair, ∀ u, Printed s u → read i u = (.ok (log i), u)) :
    wp (printLog read) (fun _ u => Printed s u ∧ Nameable log)
      (fun _ u => Printed s u ∧ ¬ Nameable log) t := by
  rw [printLog, wp_bind]
  refine wp_search (Q := fun _ u => Printed s u ∧ Nameable log)
    (I := fun i u => Printed s u ∧ ∀ j < i, (log j).callno ≠ 0 ∧ (log j).callno ≠ sysPs)
    ⟨h, by simp⟩ ?_ ?_
  · rintro i u hi ⟨hu, hbefore⟩
    rw [wp_bind, wp, hread i hi u hu]
    dsimp only
    rw [wp_ite]
    refine ⟨fun hzero => ?_, fun hzero => ?_⟩
    · -- the loop is left at the first pair that is not in use
      refine ⟨hu, fun m _ hall => (hbefore m ?_).2⟩
      by_contra hle
      exact hall i (not_lt.1 hle) hzero
    · rw [wp_bind]
      refine wp_mono (wp_printEntry hu (log i)) ?_ ?_
      · rintro _ v ⟨hne, hv⟩
        refine ⟨hv, fun j hj => ?_⟩
        rcases Nat.lt_succ_iff_lt_or_eq.1 hj with hj | rfl
        · exact hbefore j hj
        · exact ⟨hzero, hne⟩
      · rintro _ v ⟨heq, hv⟩
        refine ⟨hv, fun hname => hname i hi (fun j hj => ?_) heq⟩
        rcases Nat.lt_or_eq_of_le hj with hj | rfl
        · exact (hbefore j hj).1
        · exact hzero
  · rintro u ⟨hu, hbefore⟩
    exact ⟨hu, fun i hi _ => (hbefore i hi).2⟩

theorem wp_printProc (getPid : Kernel (BitVec 32)) (read : ℕ → Kernel Entry) (pid : BitVec 32)
    (log : Log) (h : Printed s t) (hpid : ∀ u, Printed s u → getPid u = (.ok pid, u))
    (hread : ∀ i < nLogPair, ∀ u, Printed s u → read i u = (.ok (log i), u)) :
    wp (printProc getPid read) (fun _ u => Printed s u ∧ (pid ≠ 0 → Nameable log))
      (fun _ u => Printed s u ∧ ¬ (pid ≠ 0 → Nameable log)) t := by
  rw [printProc, wp_bind, wp, hpid t h]
  dsimp only
  rw [wp_ite]
  refine ⟨fun hzero => ⟨h, fun hne => absurd hzero hne⟩, fun hne => ?_⟩
  refine wp_mono (wp_printLog read log (h.print _) hread) ?_ ?_
  · rintro _ u ⟨hu, hname⟩
    exact ⟨hu, fun _ => hname⟩
  · rintro _ u ⟨hu, hname⟩
    exact ⟨hu, fun himp => hname (himp hne)⟩

/-- No record leads `print_syscalls` to `SYS_ps`. -/
def Tables.Printable (s : Tables) : Prop :=
  ∀ n < nProc, (s.pptable n).pid ≠ 0 → Nameable (s.pptable n).sysclog

theorem wp_printTerminated :
    wp printTerminated (fun _ t => Printed s t ∧ s.Printable)
      (fun _ t => Printed s t ∧ ¬ s.Printable) s := by
  rw [printTerminated, wp_bind, wp_update, wp_bind]
  refine wp_mono_post (wp_forEach (I := Printed s) (P := fun n => (s.pptable n).pid ≠ 0 → Nameable
    (s.pptable n).sysclog) (E := fun _ t => Printed s t ∧ ¬ s.Printable) ((Printed.refl s).print _)
    ?_) ?_
  · intro n hn u hu
    have hlt := List.mem_range.1 hn
    refine wp_mono (wp_printProc _ _ (s.pptable n).pid (s.pptable n).sysclog hu ?_ ?_)
      (fun _ _ h => h) ?_
    · rintro v ⟨lines, rfl⟩
      simp only [readPid, hlt, if_true]
      rfl
    · rintro i hi v ⟨lines, rfl⟩
      simp only [readRecord, hlt, hi, if_true]
      rfl
    · rintro _ v ⟨hv, hname⟩
      exact ⟨hv, fun hall => hname (hall n hlt)⟩
  · rintro _ u ⟨hu, hrecords⟩
    exact ⟨hu, fun n hn => hrecords n (List.mem_range.2 hn)⟩

/-! ## The loops over the logs of other processes -/

/-- What is known of a loop under way: `kill` has copied at most the pairs of the process that
it has passed, and in the first loop at most as many as init has in use. -/
def Critical.Fits (s : Tables) : Critical → Prop
  | .toInit q i k => i ≤ nLogPair ∧ k ≤ kept Entry.inUse (s.proc q).sysclog i ∧
      k ≤ used (s.proc s.initproc).sysclog
  | .toRecord q n i k => n < nProc ∧
      k ≤ used (s.proc q).sysclog + kept Entry.inUse (s.proc q).sysclog i
  | .listProc _ | .listPair _ _ => True

/-- What a round does to the tables, and what comes next. -/
inductive Advance (s : Tables) : Critical → Option Critical → Tables → Prop where
  | pass {q : Slot} {i k : ℕ} (hi : i < nLogPair) :
      Advance s (.toInit q i k) (some (.toInit q (i + 1) k)) s
  | copy {q : Slot} {i k : ℕ} (hi : i < nLogPair) (hpair : ((s.proc q).sysclog i).callno ≠ 0) :
      Advance s (.toInit q i k) (some (.toInit q (i + 1) (k + 1))) (s.setLog s.initproc
        (Function.update (s.proc s.initproc).sysclog k ((s.proc q).sysclog i)))
  | take {q : Slot} {i k n : ℕ} (hi : nLogPair ≤ i) (hn : s.FreeAt n) :
      Advance s (.toInit q i k) (some (.toRecord q n 0 k))
        (s.setRecord n { s.pptable n with pid := (s.proc q).pid })
  | passRecord {q : Slot} {n i k : ℕ} :
      Advance s (.toRecord q n i k) (some (.toRecord q n (i + 1) k)) s
  | copyRecord {q : Slot} {n i k : ℕ} (hi : i < nLogPair)
      (hpair : ((s.proc q).sysclog i).callno ≠ 0) :
      Advance s (.toRecord q n i k) (some (.toRecord q n (i + 1) (k + 1))) (s.setRecord n
        { s.pptable n with
          sysclog := Function.update (s.pptable n).sysclog k ((s.proc q).sysclog i) })
  | leave {q : Slot} {n i k : ℕ} : Advance s (.toRecord q n i k) none s
  | list {c : Critical} {next : Option Critical} {t : Tables}
      (hnext : ∀ d, next = some d → ∀ u, d.Fits u) (ht : Printed s t) : Advance s c next t

/-- A round that leaves an array. -/
def Critical.Strays (s : Tables) : Critical → Prop
  | .toInit _ i _ => nLogPair ≤ i ∧ s.Full
  | .toRecord q _ i k => i < nLogPair ∧ ((s.proc q).sysclog i).callno ≠ 0 ∧ nLogPair ≤ k
  | .listProc _ => False
  | .listPair q i => i < nLogPair ∧ ((s.proc q).sysclog i).callno = sysPs

theorem fits_nextProc (q : Slot) (c : Critical) (h : nextProc q = some c) : c.Fits s := by
  unfold nextProc at h
  split_ifs at h
  cases h
  trivial

theorem wp_next {c : Critical} (h : c.Fits s) : wp c.next (fun next t => Advance s c next t)
    (fun _ t => c.Strays s ∧ Printed s t) s := by
  have hlist : ∀ q t, Printed s t → Advance s c (nextProc q) t := fun q t ht =>
    .list (fun d hd u => fits_nextProc q d hd) ht
  cases c with
  | toInit q i k =>
    obtain ⟨-, hk, -⟩ := h
    rw [Critical.next, wp_ite]
    refine ⟨fun hi => ?_, fun hi => ?_⟩
    · have hlt : k < nLogPair := (hk.trans (kept_le i)).trans_lt hi
      rw [wp_bind, wp_look, wp_bind, wp_copyPair (readLog_eq s q hi), writeLog, if_pos hlt]
      exact ⟨fun hpair => .copy hi hpair, fun _ => .pass hi⟩
    · rw [wp_bind]
      refine wp_mono wp_takeRecord ?_ ?_
      · rintro n t ⟨hn, rfl⟩
        exact .take (not_lt.1 hi) hn
      · rintro _ t ⟨hfull, rfl⟩
        exact ⟨⟨not_lt.1 hi, hfull⟩, Printed.refl _⟩
  | toRecord q n i k =>
    rw [Critical.next, wp_ite]
    refine ⟨fun hi => ?_, fun _ => .leave⟩
    rw [wp_bind, wp_copyPair (readLog_eq s q hi), wp_writeRecord h.1]
    refine ⟨fun hpair => ⟨fun _ => .copyRecord hi hpair, fun hk => ?_⟩, fun _ => .passRecord⟩
    exact ⟨⟨hi, hpair, not_lt.1 hk⟩, Printed.refl s⟩
  | listProc q =>
    rw [Critical.next, wp_bind, wp_look, wp_ite]
    refine ⟨fun _ => hlist q s (Printed.refl s), fun _ => ?_⟩
    refine .list (fun d hd u => ?_) ((Printed.refl s).print _)
    cases hd
    trivial
  | listPair q i =>
    rw [Critical.next, wp_ite]
    refine ⟨fun hi => ?_, fun _ => hlist q s (Printed.refl s)⟩
    rw [wp_bind, wp, readLog_eq s q hi]
    dsimp only
    rw [wp_ite]
    refine ⟨fun _ => hlist q s (Printed.refl s), fun _ => ?_⟩
    rw [wp_bind]
    refine wp_mono (wp_printEntry (Printed.refl s) _) ?_ fun _ t ht => ⟨⟨hi, ht.1⟩, ht.2⟩
    rintro _ t ⟨-, ht⟩
    refine .list (fun d hd u => ?_) ht
    cases hd
    trivial

end Xv6.SyscallLog
