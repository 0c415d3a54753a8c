import Xv6.Scheduler.Pass

/-!
# Alarms

`set_alarm` leaves the tick at which the alarm is due in the slot of the calling process,
and `check_alarm` looks there when `run_proc` dispatches a process. Nothing else touches
`alarm_time`. In particular `allocproc` does not clear it, so that a process which exits
with an alarm pending leaves it to the next process in its slot.

An alarm is recorded with the process that set it: `Calls` holds the latest call of the
process in each slot, and `allocproc` starts a new process. What is printed belongs to the
process as long as `allocproc` finds no alarm in the slots it takes and no sum
`ticks + time / 10` wraps.
-/

namespace Xv6.Scheduler

open Option Function

open PTable (Slot ProcState)

variable {F : Type*} {fl : Floats F} {p : Slot}

variable {s : State}

/-- The part of the machine that alarms depend on: the scheduler, and `alarm_time` of every
process. -/
structure Alarms where
  sched : State
  alarmTime : Slot → BitVec 32

inductive AlarmEvent where
  | sched (e : Event)
  | setAlarm (p : Slot) (time : BitVec 32)

namespace Alarms

/-- The test of `check_alarm`. `ticks` is unsigned, so the comparison is; `alarm_time` itself
is an `int`. -/
def Due (s : Alarms) (p : Slot) : Prop :=
  s.alarmTime p ≤ s.sched.ticks ∧ 0 < (s.alarmTime p).toInt

instance (s : Alarms) (p : Slot) : Decidable (s.Due p) := inferInstanceAs (Decidable (_ ∧ _))

def prints (fl : Floats F) (s : Alarms) : AlarmEvent → Option Slot
  | .sched (.schedule draws) => (s.sched.dispatched fl draws).filter fun p => s.Due p
  | _ => none

def checkAlarm (fl : Floats F) (s : Alarms) (e : AlarmEvent) : Slot → BitVec 32 :=
  match s.prints fl e with
  | some p => Function.update s.alarmTime p 0
  | none => s.alarmTime

def setAlarm (s : Alarms) (p : Slot) (time : BitVec 32) : Option Alarms :=
  if (s.sched.proc p).state = .running then
    if time.toInt ≤ 0 then
      some s
    else
      some { s with alarmTime := Function.update s.alarmTime p (s.sched.ticks + time.sdiv 10) }
  else
    none

def step (fl : Floats F) (s : Alarms) : AlarmEvent → Option Alarms
  | .sched e =>
    (Scheduler.step fl s.sched e).map fun sched => ⟨sched, s.checkAlarm fl (.sched e)⟩
  | .setAlarm p time => s.setAlarm p time

def start : Alarms := ⟨empty, fun _ => 0⟩

/-- The alarms printed in a run, each with the process and the tick. -/
def printed (fl : Floats F) : Alarms → List AlarmEvent → List (Slot × BitVec 32)
  | _, [] => []
  | s, e :: es =>
    ((s.prints fl e).map fun p => (p, s.sched.ticks)).toList ++ match s.step fl e with
      | none => []
      | some t => printed fl t es

end Alarms

/-- A call `set_alarm(time)` with `time > 0`, the tick at which it was made, and whether an
alarm has been printed for it. -/
structure AlarmCall where
  tick : ℕ
  time : ℕ
  answered : Bool
  deriving DecidableEq

abbrev Calls := Slot → Option AlarmCall

def State.freeSlot (s : State) : Option Slot := slots.find? fun p => (s.proc p).state = .unused

def Calls.note (fl : Floats F) (s : Alarms) (calls : Calls) : AlarmEvent → Calls
  | .sched .allocproc =>
    match s.sched.freeSlot with
    | some p => Function.update calls p none
    | none => calls
  | .sched e =>
    match s.prints fl (.sched e) with
    | some p => Function.update calls p ((calls p).map fun c => { c with answered := true })
    | none => calls
  | .setAlarm p time =>
    if time.toInt ≤ 0 then calls
    else Function.update calls p (some ⟨s.sched.ticks.toNat, time.toNat, false⟩)

abbrev Watched := Alarms × Calls

def watch (fl : Floats F) (w : Watched) (e : AlarmEvent) : Option Watched :=
  (w.1.step fl e).map fun s => (s, w.2.note fl w.1 e)

/-- What is printed for a process is the answer to its own latest call, the only one, and
not early. -/
def Belongs (fl : Floats F) (w : Watched) (e : AlarmEvent) : Prop :=
  ∀ p ∈ w.1.prints fl e, ∃ c ∈ w.2 p,
    c.answered = false ∧ c.tick + c.time / 10 ≤ w.1.sched.ticks.toNat

/-- `allocproc` takes a slot without an alarm, and the sum in `set_alarm` does not wrap. -/
def Careful (w : Watched) : AlarmEvent → Prop
  | .sched .allocproc => ∀ p ∈ w.1.sched.freeSlot, (w.1.alarmTime p).toInt ≤ 0
  | .setAlarm _ time => 0 < time.toInt → w.1.sched.ticks.toNat + time.toNat / 10 < 2 ^ 32
  | _ => True

instance (w : Watched) (e : AlarmEvent) : Decidable (Careful w e) :=
  match e with
  | .sched .allocproc => inferInstanceAs (Decidable (∀ p ∈ w.1.sched.freeSlot, _))
  | .setAlarm _ _ => inferInstanceAs (Decidable (_ → _))
  | .sched (.forkFails _) | .sched (.forkStarts _) | .sched (.schedule _) | .sched (.yield _)
  | .sched (.sleep _) | .sched (.wakeup _) | .sched (.exit _) | .sched (.wait _)
  | .sched (.exec _) | .sched (.setTickets _ _) | .sched (.setQueue _ _) | .sched .tick =>
    isTrue trivial

def Pending (w : Watched) : Prop :=
  ∀ p, 0 < (w.1.alarmTime p).toInt → ∃ c ∈ w.2 p,
    c.answered = false ∧ c.tick + c.time / 10 = (w.1.alarmTime p).toNat

section Runs

variable {w w' : Watched} {e : AlarmEvent}

theorem pending_start : Pending (Alarms.start, fun _ => none) := by
  intro p hp
  simp [Alarms.start] at hp

theorem due_of_prints (h : w.1.prints fl e = some p) : w.1.Due p := by
  unfold Alarms.prints at h
  split at h
  · simpa using (filter_eq_some_iff.1 h).2
  · cases h

theorem Pending.belongs (h : Pending w) (e : AlarmEvent) : Belongs fl w e := by
  intro p hp
  have hdue := due_of_prints hp
  obtain ⟨c, hc, hanswered, htime⟩ := h p hdue.2
  refine ⟨c, hc, hanswered, ?_⟩
  rw [htime]
  exact BitVec.le_def.1 hdue.1

theorem Pending.update (h : Pending w) {alarmTime : Slot → BitVec 32} {calls : Calls}
    (hothers : ∀ q ≠ p, alarmTime q = w.1.alarmTime q ∧ calls q = w.2 q)
    (hp : 0 < (alarmTime p).toInt → ∃ c ∈ calls p,
      c.answered = false ∧ c.tick + c.time / 10 = (alarmTime p).toNat) :
    Pending (⟨s, alarmTime⟩, calls) := by
  intro q hq
  by_cases hpq : q = p
  · subst hpq
    exact hp hq
  · obtain ⟨htime, hcalls⟩ := hothers q hpq
    simp only [htime, hcalls] at hq ⊢
    exact h q hq

theorem Pending.prints (h : Pending w) {e : Event} :
    Pending (⟨s, w.1.checkAlarm fl (.sched e)⟩,
      match w.1.prints fl (.sched e) with
      | some p => Function.update w.2 p ((w.2 p).map fun c => { c with answered := true })
      | none => w.2) := by
  unfold Alarms.checkAlarm
  cases hprints : w.1.prints fl (.sched e) with
  | none => exact h
  | some p =>
    refine h.update (p := p) (fun q hq => ?_) fun hp => ?_
    · simp only [update_of_ne hq, and_self]
    · simp at hp

theorem Pending.allocproc (h : Pending w)
    (hfree : ∀ p ∈ w.1.sched.freeSlot, (w.1.alarmTime p).toInt ≤ 0) :
    Pending (⟨s, w.1.alarmTime⟩,
      match w.1.sched.freeSlot with
      | some p => Function.update w.2 p none
      | none => w.2) := by
  cases hp : w.1.sched.freeSlot with
  | none => exact h
  | some p =>
    refine h.update (p := p) (fun q hq => ?_) fun hpos => ?_
    · exact ⟨rfl, update_of_ne hq ..⟩
    · exact absurd hpos (Int.not_lt.2 (hfree p hp))

theorem toNat_due {ticks time : BitVec 32} (hpos : 0 < time.toInt)
    (hsum : ticks.toNat + time.toNat / 10 < 2 ^ 32) :
    (ticks + time.sdiv 10).toNat = ticks.toNat + time.toNat / 10 := by
  have hmsb : time.msb = false := by
    rw [BitVec.msb_eq_toInt]
    exact decide_eq_false (Int.not_lt.2 hpos.le)
  rw [BitVec.sdiv_eq, hmsb]
  show (ticks + time / 10).toNat = _
  rw [BitVec.toNat_add, BitVec.toNat_udiv]
  exact Nat.mod_eq_of_lt hsum

theorem Pending.step (h : Pending w) (hc : Careful w e) (hs : watch fl w e = some w') :
    Pending w' := by
  obtain ⟨s, hstep, rfl⟩ := map_eq_some_iff.1 hs
  cases e with
  | setAlarm p time =>
    obtain ⟨-, hs⟩ := ite_none_right_eq_some.1 hstep
    by_cases htime : time.toInt ≤ 0
    · rw [if_pos htime] at hs
      cases hs
      rw [Calls.note, if_pos htime]
      exact h
    · rw [if_neg htime] at hs
      cases hs
      rw [Calls.note, if_neg htime]
      refine h.update (p := p) (fun q hq => ?_) fun _ => ?_
      · simp only [update_of_ne hq, and_self]
      · have hpos := Int.not_le.1 htime
        simp only [update_self]
        exact ⟨_, rfl, rfl, (toNat_due hpos (hc hpos)).symm⟩
  | sched e =>
    obtain ⟨sched, -, rfl⟩ := map_eq_some_iff.1 hstep
    cases e with
    | allocproc => exact h.allocproc hc
    | _ => exact h.prints

theorem Pending.of_careful {es : List AlarmEvent} (h : Pending w)
    (hc : Machine.Meets (watch fl) Careful w es) : Machine.Meets (watch fl) (Belongs fl) w es := by
  intro es' e u hes hrun
  have hprefix := hc.of_prefix ((List.prefix_append es' [e]).trans hes)
  have hpending : Pending u := hprefix.invariant h (fun _ _ _ h hc hs => h.step hc hs) hrun
  exact hpending.belongs e

end Runs

section Results

variable {s t : Alarms} {es fs : List AlarmEvent} {time : BitVec 32}

theorem Alarms.step_setAlarm_of_le (htime : time.toInt ≤ 0)
    (h : s.step fl (.setAlarm p time) = some t) : t = s := by
  obtain ⟨-, h⟩ := ite_none_right_eq_some.1 h
  rw [if_pos htime] at h
  exact (Option.some.inj h).symm

theorem Alarms.run_without (htime : time.toInt ≤ 0)
    (hrun : Machine.run (Alarms.step fl) s (es ++ .setAlarm p time :: fs) = some t) :
    Machine.run (Alarms.step fl) s (es ++ fs) = some t ∧
      printed fl s (es ++ .setAlarm p time :: fs) = printed fl s (es ++ fs) := by
  induction es generalizing s with
  | nil =>
    obtain ⟨u, hu, hrest⟩ := bind_eq_some_iff.1 hrun
    obtain rfl := step_setAlarm_of_le htime hu
    refine ⟨hrest, ?_⟩
    rw [List.nil_append, printed, hu]
    rfl
  | cons e es ih =>
    obtain ⟨u, hu, hrest⟩ := bind_eq_some_iff.1 hrun
    obtain ⟨hwithout, hprinted⟩ := ih hrest
    constructor
    · rw [List.cons_append, Machine.run_cons, hu]
      exact hwithout
    · simp only [List.cons_append, printed, hu, hprinted]

/-- From boot on, as long as `allocproc` takes slots without an alarm and no sum wraps, an
alarm that is printed for a process answers its own latest call, for the first time and not
early. A call with a time that is not positive can be left out of any run: the same state is
reached, and the same alarms are printed at the same ticks. -/
theorem alarms_belong
    (hcareful : Machine.Meets (watch fl) Careful (Alarms.start, fun _ => none) es) :
    Machine.Meets (watch fl) (Belongs fl) (Alarms.start, fun _ => none) es ∧
    ∀ (s t : Alarms) (es fs : List AlarmEvent) (p : Slot) (time : BitVec 32), time.toInt ≤ 0 →
      Machine.run (Alarms.step fl) s (es ++ .setAlarm p time :: fs) = some t →
        Machine.run (Alarms.step fl) s (es ++ fs) = some t ∧
        s.printed fl (es ++ .setAlarm p time :: fs) = s.printed fl (es ++ fs) := by
  refine ⟨pending_start.of_careful hcareful, ?_⟩
  intro s t es fs p time htime hrun
  exact Alarms.run_without htime hrun

def initRuns : List AlarmEvent :=
  [.sched .allocproc, .sched (.forkStarts 0), .sched (.schedule [0])]

/-- The alarm of `init` is printed when it is dispatched after a tick. -/
theorem alarms_belong_initRuns :
    (Alarms.printed rationals Alarms.start (initRuns ++
      [.setAlarm 0 10, .setAlarm 0 0, .sched .tick, .sched (.yield 0), .sched (.schedule [0])])) =
        [(0, 1)] ∧
    Machine.Meets (watch rationals) (Belongs rationals) (Alarms.start, fun _ => none) (initRuns ++
        [.setAlarm 0 10, .setAlarm 0 0, .sched .tick, .sched (.yield 0), .sched (.schedule [0])]) :=
    by
  exact ⟨by decide +kernel, (alarms_belong (by decide +kernel)).1⟩

/-- A child sets an alarm and exits, `init` waits for it and forks again. -/
def childLeavesAlarm : List AlarmEvent :=
  initRuns ++ [.sched .allocproc, .sched (.forkStarts 1), .sched (.sleep 0), .sched (.schedule [0]),
    .setAlarm 1 10, .sched (.exit 1), .sched (.wakeup 0), .sched (.schedule [0]), .sched (.wait 1),
    .sched .allocproc, .sched (.forkStarts 1), .sched .tick, .sched (.sleep 0)]

/-- The second child is given the alarm of the first, although it has never set one. -/
theorem alarm_of_earlier_child :
    ∃ w, Machine.run (watch rationals) (Alarms.start, fun _ => none) childLeavesAlarm = some w ∧
      w.1.prints rationals (.sched (.schedule [0])) = some 1 ∧ w.2 1 = none ∧
      ¬ Belongs rationals w (.sched (.schedule [0])) := by
  obtain ⟨w, hw, hprints, hnone⟩ : ∃ w, Machine.run (watch rationals) (Alarms.start, fun _ => none)
      childLeavesAlarm = some w ∧ w.1.prints rationals (.sched (.schedule [0])) = some 1 ∧
      w.2 1 = none := by decide +kernel
  refine ⟨w, hw, hprints, hnone, fun hbelongs => ?_⟩
  obtain ⟨c, hc, -⟩ := hbelongs 1 hprints
  simp [hnone] at hc

end Results

end Xv6.Scheduler
