import Xv6.SyscallLog.Faithful

/-!
# The archive of terminated processes

`exit` fills the first free record of `pptable`, so the records are filled in the order in
which the processes exit, and a record that is taken is never written again. `kill` fills a
record too, long before the process exits, and starts it at the index where its copy to init
has ended; the process gets a second record when it exits. A record with pid 0 counts as
free, and two processes can have one pid once `nextpid` has wrapped around.
-/

namespace Xv6.SyscallLog

open Gather Machine Function List Nat

variable {s t : System} {p q : Slot} {e : Event}

/-- The process that `kill` has found has no pid, and the pair it has come to is empty. -/
def Critical.Orderly (s : Tables) : Critical → Prop
  | .toInit q i _ | .toRecord q _ i _ => (s.proc q).pid = 0 ∧
      (i < nLogPair → ((s.proc q).sysclog i).callno = 0)
  | _ => True

instance (s : Tables) (c : Critical) : Decidable (c.Orderly s) :=
  match c with
  | .toInit _ _ _ | .toRecord _ _ _ _ => inferInstanceAs (Decidable (_ ∧ _))
  | .listProc _ | .listPair _ _ => .isTrue trivial

/-- `kill` finds at most an empty slot without a pid, and no process exits with pid 0 or with
a pid that a record has already. -/
def Orderly (s : System) : Event → Prop
  | .advance => ∀ x ∈ s.critical, x.2.Orderly s.tables
  | .exit p => (s.tables.proc p).pid ≠ 0 ∧
      ∀ n < nProc, (s.tables.pptable n).pid ≠ (s.tables.proc p).pid
  | _ => True

instance (s : System) (e : Event) : Decidable (Orderly s e) :=
  match e with
  | .advance => inferInstanceAs (Decidable (∀ x ∈ s.critical, x.2.Orderly s.tables))
  | .exit _ => inferInstanceAs (Decidable (_ ∧ _))
  | .enter _ _ | .ret _ _ | .alloc _ | .fail _ _ | .start _ _ | .reap _ _ | .kill _ _ | .print _
  | .printTerminated _ => .isTrue trivial

theorem Orderly.spares (h : Orderly s e) : Spares s e := by
  cases e with
  | advance =>
    rintro ⟨p, c⟩ hc
    have horderly := h _ hc
    cases c with
    | toInit q i k => exact fun hi => .inl (horderly.2 hi)
    | _ => trivial
  | _ => trivial

theorem Advance.pptable_eq {s u : Tables} {c : Critical} {next : Option Critical}
    (h : Advance s c next u) (hc : c.Orderly s) : u.pptable = s.pptable := by
  cases h with
  | take hi hn =>
    rw [hc.1, ← hn.2.1, setRecord_self]
  | copyRecord hi hpair => exact absurd (hc.2 hi) hpair
  | list hnext hu =>
    obtain ⟨lines, rfl⟩ := hu
    rfl
  | _ => rfl

/-- The pairs in use are the same. -/
def SameLog (a b : Log) : Prop :=
  ∀ i < nLogPair, (a i).callno = (b i).callno ∧ ((b i).callno ≠ 0 → a i = b i)

theorem SameLog.lists {a b : Log} {l : List Entry} (h : SameLog a b) (hb : Lists b l)
    (hl : ∀ e ∈ l, e.callno ≠ 0) : Lists a l := by
  intro i hi
  obtain ⟨hnum, heq⟩ := h i hi
  refine ⟨fun e he => ?_, fun hnone => hnum.trans ((hb i hi).2 hnone)⟩
  have hbe := (hb i hi).1 e he
  rw [← hbe]
  refine heq ?_
  rw [hbe]
  exact hl e (mem_of_getElem? he)

theorem sameLog_into {src dst : Log} (hsrc : Contiguous src)
    (hdst : ∀ i < nLogPair, (dst i).callno = 0) :
    SameLog (into Entry.inUse src dst 0 nLogPair) src := by
  intro i hi
  rw [hsrc.into_eq]
  split_ifs with hlt
  · exact ⟨rfl, fun _ => rfl⟩
  · have hzero : (src i).callno = 0 := by
      by_contra hne
      exact hlt ((hsrc.callno_ne_zero hi).1 hne)
    exact ⟨(hdst i hi).trans hzero.symm, fun hne => absurd hzero hne⟩

def Holds (r : Record) (x : Exited) : Prop :=
  r.pid = x.pid ∧ SameLog r.sysclog x.sysclog

/-- The records are filled in the order of the exits. -/
structure Archived (s : System) : Prop where
  filled : ∀ n x, s.exited[n]? = some x → n < nProc → Holds (s.tables.pptable n) x
  free : ∀ n, s.exited.length ≤ n → (s.tables.pptable n).pid = 0 ∧
    ∀ i < nLogPair, ((s.tables.pptable n).sysclog i).callno = 0
  pids : ∀ x ∈ s.exited, x.pid ≠ 0
  distinct : ∀ m n x y, s.exited[m]? = some x → s.exited[n]? = some y →
    m < nProc → n < nProc → x.pid = y.pid → m = n
  lists : ∀ x ∈ s.exited, Lists x.sysclog x.calls ∧ ∀ e ∈ x.calls, e.callno ≠ 0

namespace Archived

theorem boot (initproc : Slot) : Archived (boot initproc) := by
  have hexited : (SyscallLog.boot initproc).exited = [] := rfl
  refine ⟨?_, fun _ _ => ⟨rfl, fun _ _ => rfl⟩, ?_, ?_, ?_⟩ <;> simp [hexited]

theorem of_pptable (h : Archived s) (hexited : t.exited = s.exited)
    (hpptable : t.tables.pptable = s.tables.pptable) : Archived t := by
  refine ⟨?_, ?_, ?_, ?_, ?_⟩
  · rw [hexited, hpptable]
    exact h.filled
  · rw [hexited, hpptable]
    exact h.free
  · rw [hexited]
    exact h.pids
  · rw [hexited]
    exact h.distinct
  · rw [hexited]
    exact h.lists

theorem freeAt_eq (h : Archived s) {n : ℕ} (hn : s.tables.FreeAt n) : n = s.exited.length := by
  apply le_antisymm
  · by_contra hlt
    rw [not_le] at hlt
    exact hn.2.2 _ hlt (h.free _ (le_refl _)).1
  · by_contra hlt
    rw [not_le] at hlt
    have hget := List.getElem?_eq_getElem hlt
    have hpid := (h.filled n _ hget hn.1).1
    exact h.pids _ (mem_of_getElem? hget) (hpid.symm.trans hn.2.1)

theorem exit (h : Archived s) {n : ℕ} {x : Exited} {log : Log} {call : Slot → Option Call}
    {u : Slot → Proc} (hn : s.tables.FreeAt n)
    (hpid : x.pid ≠ 0 ∧ ∀ n < nProc, (s.tables.pptable n).pid ≠ x.pid)
    (hlog : SameLog log x.sysclog)
    (hlists : Lists x.sysclog x.calls ∧ ∀ e ∈ x.calls, e.callno ≠ 0) :
    Archived { s with
      tables := { s.tables with
        proc := u
        pptable := update s.tables.pptable n ⟨x.pid, log⟩ }
      call := call
      exited := s.exited ++ [x] } := by
  obtain rfl := h.freeAt_eq hn
  have hmem : ∀ y ∈ s.exited ++ [x], y ∈ s.exited ∨ y = x := by simp
  have hget : ∀ m y, (s.exited ++ [x])[m]? = some y →
      m < s.exited.length ∧ s.exited[m]? = some y ∨ m = s.exited.length ∧ y = x := by
    intro m y hy
    rcases Nat.lt_trichotomy m s.exited.length with hlt | rfl | hgt
    · rw [List.getElem?_append_left hlt] at hy
      exact .inl ⟨hlt, hy⟩
    · rw [List.getElem?_concat_length] at hy
      exact .inr ⟨rfl, (Option.some.inj hy).symm⟩
    · rw [List.getElem?_eq_none (by simp; omega)] at hy
      cases hy
  have hnew : ∀ m y, s.exited[m]? = some y → m < nProc → y.pid ≠ x.pid := by
    intro m y hy hm heq
    exact hpid.2 m hm ((h.filled m y hy hm).1.trans heq)
  refine ⟨fun m y hy hm => ?_, fun m hm => ?_, fun y hy => ?_,
    fun m k y z hy hz hm hk heq => ?_, fun y hy => ?_⟩
  · rcases hget m y hy with ⟨hlt, hy⟩ | ⟨rfl, rfl⟩
    · simp only [update_of_ne hlt.ne]
      exact h.filled m y hy hm
    · simp only [update_self]
      exact ⟨rfl, hlog⟩
  · rw [length_append, length_singleton] at hm
    simp only [update_of_ne (Nat.ne_of_gt hm)]
    exact h.free m (Nat.le_of_succ_le hm)
  · rcases hmem y hy with hy | rfl
    · exact h.pids y hy
    · exact hpid.1
  · rcases hget m y hy with ⟨-, hold⟩ | ⟨hm', rfl⟩ <;>
      rcases hget k z hz with ⟨-, hold'⟩ | ⟨hk', rfl⟩
    · exact h.distinct m k y z hold hold' hm hk heq
    · exact absurd heq (hnew m y hold hm)
    · exact absurd heq.symm (hnew k z hold' hk)
    · exact hm'.trans hk'.symm
  · rcases hmem y hy with hy | rfl
    · exact h.lists y hy
    · exact hlists

end Archived

/-- What an orderly step does to the archive: nothing, or it fills the next record, or every
record is taken. -/
theorem orderly_step (hshape : Shape s) (he : Orderly s e) (hstep : step s e = some t) :
    t.exited = s.exited ∧ t.tables.pptable = s.tables.pptable ∨
    (∃ p n, e = .exit p ∧ (s.tables.proc p).phase = .live ∧ s.tables.FreeAt n ∧ t = { s with
        tables := { s.tables with
          proc := t.tables.proc
          pptable := update s.tables.pptable n ⟨(s.tables.proc p).pid,
            into Entry.inUse (s.tables.proc p).sysclog (s.tables.pptable n).sysclog 0 nLogPair⟩ }
        call := t.call
        exited := s.exited ++
          [⟨(s.tables.proc p).pid, (s.tables.proc p).sysclog, s.completed p⟩] }) ∨
    s.tables.Full ∧ t.exited.length = s.exited.length + 1 ∧
      t.tables.pptable = s.tables.pptable := by
  cases hshape.change hstep with
  | unknown p num ht => exact .inl ⟨by rw [ht], by rw [ht]⟩
  | enter p num hlive hnum ht => exact .inl ⟨by rw [ht], by rw [ht]⟩
  | ret p c retval hc ht =>
    refine .inl ⟨by rw [ht], ?_⟩
    rw [ht]
    split_ifs <;> rfl
  | place _ p q x nextpid ht hq hx => exact .inl ⟨by rw [ht], by rw [ht]⟩
  | overrun p ht => exact .inl ⟨by rw [ht], by rw [ht]⟩
  | start p np hfree hnp ht => exact .inl ⟨by rw [ht]; rfl, by rw [ht]; rfl⟩
  | exit p n hlive hp hn ht => exact .inr (.inl ⟨p, n, rfl, hlive, hn, by rw [ht]; rfl⟩)
  | exitFault p a hlive hp hfull ht =>
    exact .inr (.inr ⟨hfull, by rw [ht]; simp, by rw [ht]; rfl⟩)
  | killNone p pid ht => exact .inl ⟨by rw [ht], by rw [ht]⟩
  | enterLoop _ p c hc ht => exact .inl ⟨by rw [ht], by rw [ht]⟩
  | advance p c next u hc hnext ht =>
    exact .inl ⟨by rw [ht], by rw [ht]; exact hnext.pptable_eq (he _ hc)⟩
  | advanceFault p c u a hc hbad hu ht =>
    obtain ⟨lines, rfl⟩ := hu
    exact .inl ⟨by rw [ht], by rw [ht]⟩
  | terminated p u hu ht =>
    obtain ⟨lines, rfl⟩ := hu
    exact .inl ⟨by rw [ht], by rw [ht]⟩
  | terminatedFault p u a hu hnames ht =>
    obtain ⟨lines, rfl⟩ := hu
    exact .inl ⟨by rw [ht], by rw [ht]⟩

theorem Archived.step (h : Archived s) (hshape : Shape s) (hfaithful : Faithful s)
    (he : Orderly s e) (hstep : step s e = some t)
    (hle : t.exited.length ≤ nProc) : Archived t := by
  rcases orderly_step hshape he hstep with
    ⟨hexited, hpptable⟩ | ⟨p, n, rfl, hlive, hn, ht⟩ | ⟨hfull, hlength, -⟩
  · exact h.of_pptable hexited hpptable
  · rw [ht]
    refine h.exit (x := ⟨(s.tables.proc p).pid, (s.tables.proc p).sysclog, s.completed p⟩) hn he
      (sameLog_into (hshape.contiguous p) ?_) ⟨hfaithful.lists p hlive, hfaithful.numbers p hlive⟩
    exact (h.free n (h.freeAt_eq hn).ge).2
  · -- with a record left, not every record is taken
    rw [hlength] at hle
    exact absurd (h.free _ (le_refl _)).1 (hfull _ hle)

theorem exited_length_le (hshape : Shape s) (he : Orderly s e)
    (hstep : step s e = some t) : s.exited.length ≤ t.exited.length := by
  rcases orderly_step hshape he hstep with ⟨hexited, -⟩ | ⟨p, n, -, -, -, ht⟩ | ⟨-, hlength, -⟩
  · rw [hexited]
  · rw [ht]
    simp
  · rw [hlength]
    exact le_succ _

/-- In every run with at most `NPROC` terminations in which `kill` finds at most empty slots
without a pid and no process exits with pid 0 or with the pid of a record, there is exactly
one record with the pid of each process that has exited. It holds the pairs that were in use
in the process's log, which are the calls the process had completed, from index 0 on. A
record that is taken stays as it is in every such continuation of the run. -/
theorem archive_exact {initproc : Slot} {es : List Event}
    (hrun : run step (boot initproc) es = some s)
    (hmeets : Meets step Orderly (boot initproc) es) (hle : s.exited.length ≤ nProc) :
    (∀ x ∈ s.exited, ∃ n < nProc, (s.tables.pptable n).pid = x.pid ∧
      (∀ m < nProc, (s.tables.pptable m).pid = x.pid → m = n) ∧
      SameLog (s.tables.pptable n).sysclog x.sysclog ∧
      Lists (s.tables.pptable n).sysclog x.calls) ∧
    ∀ fs t, run step s fs = some t → Meets step Orderly s fs →
      ∀ n < nProc, (s.tables.pptable n).pid ≠ 0 → t.tables.pptable n = s.tables.pptable n := by
  obtain ⟨hshape, -, harchived⟩ : Shape s ∧ Faithful s ∧
      (s.exited.length ≤ nProc → Archived s) := by
    refine hmeets.invariant
      (I := fun s => Shape s ∧ Faithful s ∧ (s.exited.length ≤ nProc → Archived s)) ?_ ?_ hrun
    · exact ⟨Shape.boot initproc, Faithful.boot initproc, fun _ => Archived.boot initproc⟩
    · rintro t e u ⟨hshape, hfaithful, harchived⟩ he hstep
      refine ⟨hshape.step hstep, hfaithful.step hshape he.spares hstep, fun hle => ?_⟩
      have hlt := (exited_length_le hshape he hstep).trans hle
      exact (harchived hlt).step hshape hfaithful he hstep hle
  have h := harchived hle
  refine ⟨fun x hx => ?_, fun fs t hfs hgood n hn hpid => ?_⟩
  · obtain ⟨n, hlt, hget⟩ := mem_iff_getElem.1 hx
    have hget : s.exited[n]? = some x := by rw [List.getElem?_eq_getElem hlt, hget]
    have hn := hlt.trans_le hle
    obtain ⟨hpid, hlog⟩ := h.filled n x hget hn
    obtain ⟨hlists, hnum⟩ := h.lists x hx
    refine ⟨n, hn, hpid, fun m hm hmpid => ?_, hlog, hlog.lists hlists hnum⟩
    rcases lt_or_ge m s.exited.length with hml | hml
    · have hgetm := List.getElem?_eq_getElem hml
      exact h.distinct m n _ x hgetm hget hm hn ((h.filled m _ hgetm hm).1.symm.trans hmpid)
    · exact absurd (hmpid.symm.trans (h.free m hml).1) (h.pids x hx)
  · have hkept : Shape t ∧ t.tables.pptable n = s.tables.pptable n := by
      refine hgood.invariant
        (I := fun t => Shape t ∧ t.tables.pptable n = s.tables.pptable n) ⟨hshape, rfl⟩ ?_ hfs
      rintro t e u ⟨hshape, hsame⟩ he hstep
      refine ⟨hshape.step hstep, ?_⟩
      rcases orderly_step hshape he hstep with
        ⟨-, hpptable⟩ | ⟨p, m, -, -, hm, hu⟩ | ⟨-, -, hpptable⟩
      · rw [hpptable, hsame]
      · have hne : n ≠ m := by
          rintro rfl
          exact hpid (hsame ▸ hm.2.1)
        rw [hu]
        simp only [update_of_ne hne, hsame]
      · rw [hpptable, hsame]
    exact hkept.2

def childExits : List Event :=
  [.enter 0 sysFork, .alloc 0, .start 0 1, .ret 0 2, .enter 1 11, .ret 1 2, .exit 1]

theorem archive_exact_childExits :
    ∃ s, run step (boot 0) childExits = some s ∧ ∃ n < nProc, (s.tables.pptable n).pid = 2 ∧
      (s.tables.pptable n).sysclog 0 = ⟨11, 2⟩ := by
  obtain ⟨s, hs, hexited⟩ : ∃ s, run step (boot 0) childExits = some s ∧
      s.exited.map (fun x => (x.pid, x.calls)) = [(2, [⟨11, 2⟩])] := by decide +kernel
  have hmeets : Meets step Orderly (boot 0) childExits := by decide +kernel
  obtain ⟨x, hx, hxx⟩ := map_eq_singleton_iff.1 hexited
  obtain ⟨hpid, hcalls⟩ := Prod.mk.inj hxx
  obtain ⟨hall, -⟩ := archive_exact hs hmeets (by rw [hx, length_singleton]; decide)
  obtain ⟨n, hn, hrecord, -, -, hlists⟩ := hall x (by simp [hx])
  rw [hcalls] at hlists
  exact ⟨s, hs, n, hn, hrecord.trans hpid, (hlists 0 (by decide)).1 _ rfl⟩

/-- When the child is killed before it exits, there are two records with its pid, and the first
of them starts with an empty pair, since `kill` has written the call to index 1. -/
theorem kill_then_exit_two_records :
    ∃ s, run step (boot 0) (killChild ++ [.exit 1]) = some s ∧ s.fault = none ∧
      s.exited.map Exited.pid = [2] ∧
      (s.tables.pptable 0).pid = 2 ∧ ((s.tables.pptable 0).sysclog 0).callno = 0 ∧
      (s.tables.pptable 0).sysclog 1 = ⟨11, 2⟩ ∧
      (s.tables.pptable 1).pid = 2 ∧ (s.tables.pptable 1).sysclog 0 = ⟨11, 2⟩ := by
  decide +kernel

end Xv6.SyscallLog
