import Xv6.SyscallLog.Change

/-!
# Where the logging leaves its arrays

`exit` and `kill` look for a free record of `pptable` and use index `NPROC` when there is
none. `kill` goes on counting pairs from the number it has copied to init, so it leaves the
record's log when the process has used more than half of its own. `print_syscalls` compares
the number of a call with the number of names the wrong way and reads past the names for
`SYS_ps`. There is no other access out of bounds.
-/

namespace Xv6.SyscallLog

open Gather Machine

variable {s t : System} {c : Critical}

/-- What keeps the next round in bounds: `kill` finds a free record, the process that it copies
has used at most half of its log, and the log that is printed does not lead to `SYS_ps`. -/
def Critical.InBounds (s : Tables) : Critical → Prop
  | .toInit _ i _ => nLogPair ≤ i → ∃ n < nProc, (s.pptable n).pid = 0
  | .toRecord q _ _ _ => 2 * used (s.proc q).sysclog ≤ nLogPair
  | .listProc _ => True
  | .listPair q _ => Nameable (s.proc q).sysclog

def InBounds (s : System) : Event → Prop
  | .exit _ => ∃ n < nProc, (s.tables.pptable n).pid = 0
  | .advance => ∀ x ∈ s.critical, x.2.InBounds s.tables
  | .printTerminated _ => s.tables.Printable
  | _ => True

theorem not_full_of_free {s : Tables} (h : ∃ n < nProc, (s.pptable n).pid = 0) : ¬ s.Full := by
  obtain ⟨n, hn, hpid⟩ := h
  exact fun hfull => hfull n hn hpid

theorem Critical.InBounds.not_strays (h : Shape s) (hc : c.Fits s.tables)
    (hbounds : c.InBounds s.tables) : ¬ c.Strays s.tables := by
  cases c with
  | toInit q i k => exact fun hbad => not_full_of_free (hbounds hbad.1) hbad.2
  | toRecord q n i k =>
    rintro ⟨hi, hpair, hk⟩
    -- the pair itself is in use, and at most the pairs before it are copied a second time
    have hkept : kept Entry.inUse (s.tables.proc q).sysclog i + 1 ≤
        used (s.tables.proc q).sysclog := by
      rw [← kept_succ_of_keep (Entry.inUse_iff.2 hpair)]
      exact kept_mono hi
    have hfits := hc.2
    have hhalf : 2 * used (s.tables.proc q).sysclog ≤ nLogPair := hbounds
    omega
  | listProc q => exact id
  | listPair q i =>
    rintro ⟨hi, hps⟩
    have hcont := h.contiguous q
    have hlt := (hcont.callno_ne_zero hi).1 (by rw [hps]; decide)
    exact hbounds i hi (fun j hj => (hcont.callno_ne_zero (hj.trans_lt hi)).2 (hj.trans_lt hlt)) hps

theorem fault_eq_none_of_inBounds (h : Shape s) {e : Event} (he : InBounds s e)
    (hstep : step s e = some t) : t.fault = none := by
  have hs := fault_eq_none hstep
  cases h.change hstep with
  | exitFault p a hlive hp hfull ht => exact absurd hfull (not_full_of_free he)
  | advanceFault p c u a hc hbad hu ht =>
    exact absurd hbad ((he _ hc).not_strays h (h.critical p c hc))
  | terminatedFault p u a hu hnames ht => exact absurd he hnames
  | _ => simp_all [System.start]

/-- In every run in which `exit` and `kill` find a free record, `kill` copies to a record only
from logs of which at most half is used, and `print_syscalls` comes to no log that leads to
`SYS_ps`, all accesses are in bounds. -/
theorem accesses_in_bounds {initproc : Slot} {es : List Event}
    (hrun : run step (boot initproc) es = some s)
    (hmeets : Meets step InBounds (boot initproc) es) : s.fault = none := by
  have hall : Shape s ∧ s.fault = none := by
    refine hmeets.invariant (I := fun s => Shape s ∧ s.fault = none) ?_ ?_ hrun
    · exact ⟨Shape.boot initproc, rfl⟩
    · rintro t e u ⟨hshape, -⟩ he hstep
      exact ⟨hshape.step hstep, fault_eq_none_of_inBounds hshape he hstep⟩
  exact hall.2

/-- A child exits; another one is killed after init has printed the calls. -/
def printAndKill : List Event :=
  [.enter 0 sysFork, .alloc 0, .start 0 1, .ret 0 2, .exit 1, .enter 0 sysFork, .alloc 0,
    .start 0 2, .ret 0 3, .enter 2 11, .ret 2 3, .enter 0 sysPrintSyscalls, .print 0] ++
  List.replicate 70 .advance ++
  [.printTerminated 0, .ret 0 23, .enter 0 sysKill, .kill 0 3] ++
  List.replicate (nLogPair + 2) .advance

def checkBounds (s : System) : Event → Bool
  | .exit _ => (s.tables.pptable 0).pid = 0
  | .advance => match s.critical with
    | some (_, .toInit _ i _) => i < nLogPair ∨ (s.tables.pptable 1).pid = 0
    | some (_, .toRecord q _ _ _) => 2 * used (s.tables.proc q).sysclog ≤ nLogPair
    | some (_, .listPair q _) => ∀ i < nLogPair, ((s.tables.proc q).sysclog i).callno ≠ sysPs
    | _ => true
  | .printTerminated _ => ∀ n < nProc, ((s.tables.pptable n).sysclog 0).callno = 0
  | _ => true

theorem inBounds_of_checkBounds (s : System) (e : Event) (h : checkBounds s e = true) :
    InBounds s e := by
  cases e with
  | exit p => exact ⟨0, by decide, of_decide_eq_true h⟩
  | advance =>
    rintro ⟨p, c⟩ (hc : s.critical = some (p, c))
    simp only [checkBounds, hc] at h
    cases c with
    | toInit q i k =>
      have h := of_decide_eq_true h
      exact fun hi => ⟨1, by decide, h.resolve_left (not_lt.2 hi)⟩
    | toRecord q n i k =>
      have h := of_decide_eq_true h
      exact h
    | listProc q => trivial
    | listPair q i =>
      have h := of_decide_eq_true h
      exact fun i hi _ => h i hi
  | printTerminated p =>
    have h := of_decide_eq_true h
    exact fun n hn _ i _ hall => absurd (h n hn) (hall 0 (Nat.zero_le i))
  | _ => trivial

theorem accesses_in_bounds_printAndKill :
    ∃ s, run step (boot 0) printAndKill = some s ∧ s.fault = none ∧
      (s.tables.pptable 1).sysclog 1 = ⟨11, 3⟩ := by
  obtain ⟨s, hs, hrecord⟩ : ∃ s, run step (boot 0) printAndKill = some s ∧
      (s.tables.pptable 1).sysclog 1 = ⟨11, 3⟩ := by decide +kernel
  have hmeets : Meets step InBounds (boot 0) printAndKill :=
    .mono (by decide +kernel) inBounds_of_checkBounds
  exact ⟨s, hs, accesses_in_bounds hs hmeets, hrecord⟩

/-- Init calls `ps` and then `print_syscalls`, which reads `names[27]` of 27 names. -/
theorem ps_then_print_syscalls :
    (run step (boot 0) [.enter 0 sysPs, .ret 0 0, .enter 0 sysPrintSyscalls, .print 0, .advance,
      .advance]).bind System.fault = some (.names 27) ∧ names.length = 27 := by
  decide +kernel

end Xv6.SyscallLog
