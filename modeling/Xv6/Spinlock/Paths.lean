import Xv6.Library.LockOrder
import Xv6.Library.Machine

/-!
# Spinlocks of the process table and the console

The kernel paths that take `ptable.lock`, `pptable.lock`, `cons.lock` and
`tickslock`, as the sequences of `acquire` and `release` that one CPU goes
through. `acquire` disables interrupts, so a path that has started runs to the
point where the CPU holds no lock. Where a process calls `sched`, the scheduler
of the same CPU releases `ptable.lock`; where it is run again, the CPU that runs
it starts a new path, which for `sleep` begins with the second `acquire(lk)`.

`print_syscalls`, `ps`, `read_registers` and `check_alarm` print while a process
table is locked. `consoleintr` and `consoleread` lock the process table while
the console is locked.
-/

namespace Xv6.Spinlock

open LockOrder Machine Function List

inductive Lock where
  | ptable
  | pptable
  | cons
  | tickslock
  deriving DecidableEq

/-- A path, with the number of rounds of its loops and the branches it takes. -/
inductive Path where
  /-- `wakeups` lines are completed, and `procdump` prints `lines` times. -/
  | consoleintr (wakeups lines : ℕ)
  | consoleread (sleeps : Bool)
  | consolewrite
  | cprintf
  | wakeup
  /-- `sleep` with `ptable.lock` itself or with a lock not modelled here. -/
  | sleep
  | sysSleep (sleeps : Bool)
  | timer
  | printSyscalls (live dead : ℕ)
  | ps (procs : ℕ)
  | readRegisters
  | exit
  | kill (found : Bool)
  | runProc (alarm : Bool)
  deriving DecidableEq

variable {p : Path}

def locked (l : Lock) (ops : List (Op Lock)) : List (Op Lock) :=
  .acquire l :: (ops ++ [.release l])

def calls (l : Lock) (n : ℕ) : List (Op Lock) := (List.replicate n (locked l [])).flatten

def sleepOn (lk : Lock) : List (Op Lock) := [.acquire .ptable, .release lk, .release .ptable]

def Path.script : Path → List (Op Lock)
  | .consoleintr wakeups lines => locked .cons (calls .ptable wakeups) ++ calls .cons lines
  | .consoleread sleeps => .acquire .cons :: if sleeps then sleepOn .cons else [.release .cons]
  | .consolewrite => locked .cons []
  | .cprintf => locked .cons []
  | .wakeup => locked .ptable []
  | .sleep => locked .ptable []
  | .sysSleep sleeps =>
    .acquire .tickslock :: if sleeps then sleepOn .tickslock else [.release .tickslock]
  | .timer => locked .tickslock (locked .ptable [])
  | .printSyscalls live dead =>
    locked .ptable (calls .cons live) ++ calls .cons 1 ++ locked .pptable (calls .cons dead)
  | .ps procs => locked .ptable (calls .cons (procs + 1))
  | .readRegisters => locked .ptable (calls .cons 15)
  | .exit => locked .ptable (locked .pptable [])
  | .kill found => locked .ptable (if found then locked .pptable [] else [])
  | .runProc alarm => locked .ptable (if alarm then locked .cons [] else [])

def Path.consUnderTable (p : Path) : Bool :=
  (nestings [] p.script).any fun x => (x.1 = .ptable ∨ x.1 = .pptable) ∧ x.2 = .cons

def Path.tableUnderCons (p : Path) : Bool :=
  (nestings [] p.script).any fun x => x.1 = .cons ∧ x.2 = .ptable

structure State (C : Type*) where
  locks : LockOrder.State C Lock
  path : C → Option Path

inductive Event (C : Type*) where
  | start (c : C) (p : Path)
  | advance (c : C)

def initial (C : Type*) : State C where
  locks := { thread := fun _ => ⟨[], []⟩, holder := fun _ => none }
  path _ := none

variable {C : Type*}

def State.In (s : State C) (c : C) (p : Path) : Prop :=
  (s.locks.thread c).todo ≠ [] ∧ s.path c = some p

def State.enter [DecidableEq C] (s : State C) (c : C) (p : Path) : State C where
  locks :=
    { s.locks with
      thread := update s.locks.thread c ⟨(s.locks.thread c).held, p.script⟩ }
  path := update s.path c (some p)

/-- A CPU starts a path when it has finished the one before, or takes a step. -/
def step [DecidableEq C] (s : State C) : Event C → Option (State C)
  | .start c p => if (s.locks.thread c).todo = [] then some (s.enter c p) else none
  | .advance c => (advance s.locks c).map fun locks => { s with locks := locks }

theorem calls_succ (l : Lock) (n : ℕ) :
    calls l (n + 1) = .acquire l :: .release l :: calls l n := rfl

@[simp] theorem mem_nestings_calls {held : List Lock} {l : Lock} {n : ℕ} {ops : List (Op Lock)}
    {x : Lock × Lock} : x ∈ nestings held (calls l n ++ ops) ↔
      (0 < n ∧ x.1 ∈ held ∧ x.2 = l) ∨ x ∈ nestings held ops := by
  induction n with
  | zero => simp [calls]
  | succ n ih =>
    have hhead : x ∈ held.map (fun h => (h, l)) ↔ x.1 ∈ held ∧ x.2 = l := by
      constructor
      · intro hx
        obtain ⟨h, hh, rfl⟩ := mem_map.1 hx
        exact ⟨hh, rfl⟩
      · rintro ⟨hh, rfl⟩
        exact mem_map.2 ⟨x.1, hh, rfl⟩
    simp only [calls_succ, cons_append, nestings, mem_append, hhead, erase_cons_head, ih]
    grind

@[simp] theorem mem_nestings_calls_nil (held : List Lock) (l : Lock) (n : ℕ) {x : Lock × Lock} :
    x ∈ nestings held (calls l n) ↔ 0 < n ∧ x.1 ∈ held ∧ x.2 = l := by
  rw [← append_nil (calls l n), mem_nestings_calls]
  simp [nestings]

@[simp] theorem heldAfter_calls (held : List Lock) (l : Lock) (n : ℕ) (ops : List (Op Lock)) :
    heldAfter held (calls l n ++ ops) = heldAfter held ops := by
  induction n with
  | zero => simp [calls]
  | succ n ih => simp [calls_succ, heldAfter, ih]

theorem Path.heldAfter_script (p : Path) : heldAfter [] p.script = [] := by
  have hnil : ∀ l n, heldAfter [] (calls l n) = [] := fun l n => by
    simpa [heldAfter] using heldAfter_calls [] l n []
  cases p with
  | consoleintr | printSyscalls | ps | readRegisters =>
    simp [Path.script, locked, heldAfter, hnil]
  | consoleread sleeps | sysSleep sleeps | kill sleeps | runProc sleeps =>
    cases sleeps <;> rfl
  | _ => rfl

def printRank : Lock → ℕ
  | .tickslock => 0
  | .ptable => 1
  | .pptable => 2
  | .cons => 3

def inputRank : Lock → ℕ
  | .cons => 0
  | .tickslock => 1
  | .ptable => 2
  | .pptable => 3

theorem Path.mem_nestings (p : Path) : ∀ x ∈ nestings [] p.script,
    x ∈ [(.tickslock, .ptable), (.ptable, .pptable), (.ptable, .cons), (.pptable, .cons),
      ((.cons, .ptable) : Lock × Lock)] := by
  cases p with
  | consoleintr | printSyscalls | ps | readRegisters =>
    rintro ⟨a, b⟩ hx
    simp [Path.script, locked, nestings] at hx
    grind
  | consoleread sleeps | sysSleep sleeps | kill sleeps | runProc sleeps =>
    cases sleeps <;> decide
  | _ => decide

/-- A path that does not lock the process table under the console respects the
order of the paths that print. -/
theorem Path.ordered_printRank (h : p.tableUnderCons = false) :
    Ordered printRank ⟨[], p.script⟩ := by
  intro x hx
  have hpair := p.mem_nestings x hx
  simp only [mem_cons, not_mem_nil, or_false] at hpair
  rcases hpair with rfl | rfl | rfl | rfl | rfl
  · decide
  · decide
  · decide
  · decide
  · have hany : p.tableUnderCons = true := any_eq_true.2 ⟨_, hx, by decide⟩
    simp [h] at hany

/-- A path that does not print under a process table respects the order of the
paths that read the console. -/
theorem Path.ordered_inputRank (h : p.consUnderTable = false) :
    Ordered inputRank ⟨[], p.script⟩ := by
  have hnot : ∀ a, a = .ptable ∨ a = .pptable → (a, Lock.cons) ∉ nestings [] p.script := by
    intro a ha hx
    have hany : p.consUnderTable = true := any_eq_true.2 ⟨_, hx, by simpa using ha⟩
    simp [h] at hany
  intro x hx
  have hpair := p.mem_nestings x hx
  simp only [mem_cons, not_mem_nil, or_false] at hpair
  rcases hpair with rfl | rfl | rfl | rfl | rfl
  · decide
  · decide
  · exact absurd hx (hnot _ (.inl rfl))
  · exact absurd hx (hnot _ (.inr rfl))
  · decide

theorem Path.tableUnderCons_eq_true :
    p.tableUnderCons = true ↔ (.cons, .ptable) ∈ nestings [] p.script := by
  rw [Path.tableUnderCons, any_eq_true]
  constructor
  · rintro ⟨⟨a, b⟩, hx, hab⟩
    simp only [decide_eq_true_eq] at hab
    obtain ⟨rfl, rfl⟩ := hab
    exact hx
  · intro hx
    exact ⟨_, hx, rfl⟩

theorem Path.not_tableUnderCons (h : p.consUnderTable = true) : p.tableUnderCons = false := by
  obtain ⟨⟨a, b⟩, hx, hab⟩ := any_eq_true.1 h
  rw [← Bool.not_eq_true, Path.tableUnderCons_eq_true]
  intro hy
  cases p with
  | consoleintr =>
    simp [Path.script, locked, nestings] at hx hab
    grind
  | printSyscalls | ps | readRegisters => simp [Path.script, locked, nestings] at hy
  | consoleread sleeps | sysSleep sleeps | kill sleeps | runProc sleeps =>
    cases sleeps <;> revert h hy <;> decide
  | _ =>
    revert h hy
    decide

/-- The paths that print under a process table and the paths that lock the
process table under the console do not overlap: neither starts while another
CPU is in the middle of the other. -/
def Separate (s : State C) : Event C → Prop
  | .start c p => ∀ d q, d ≠ c → s.In d q →
      ¬ (p.consUnderTable ∧ q.tableUnderCons) ∧ ¬ (p.tableUnderCons ∧ q.consUnderTable)
  | .advance _ => True

theorem ordered_of_idle {t : Thread Lock} (ht : t.todo = []) (r : Lock → ℕ) : Ordered r t := by
  intro x hx
  rw [ht] at hx
  cases hx

structure Inv (s : State C) : Prop where
  sound : Sound s.locks
  ends : ∀ c, heldAfter (s.locks.thread c).held (s.locks.thread c).todo = []
  busy : ∀ c, (s.locks.thread c).todo ≠ [] → ∃ p, s.path c = some p
  ordered : ∀ c p, s.path c = some p →
    (p.tableUnderCons = false → Ordered printRank (s.locks.thread c)) ∧
      (p.consUnderTable = false → Ordered inputRank (s.locks.thread c))
  separate : ∀ c d p q, s.In c p → s.In d q → ¬ (p.consUnderTable ∧ q.tableUnderCons)

namespace Inv

variable {s t : State C} {c : C} {p : Path}

theorem initial (C : Type*) : Inv (Spinlock.initial C) where
  sound := ⟨fun l c => by simp [Spinlock.initial], fun c => nodup_nil⟩
  ends c := rfl
  busy c h := absurd rfl h
  ordered c p h := by cases h
  separate c d p q hc := absurd rfl hc.1

variable [DecidableEq C]

theorem start (h : Inv s) (hs : step s (.start c p) = some t)
    (hsep : Separate s (.start c p)) : Inv t := by
  obtain ⟨hidle, rfl⟩ := Option.ite_some_none_eq_some.1 hs
  have hheld : (s.locks.thread c).held = [] := by
    have hends := h.ends c
    rwa [hidle] at hends
  have hin : ∀ d q, d ≠ c → (s.enter c p).In d q → s.In d q := by
    intro d q hd hq
    simpa [State.In, State.enter, hd] using hq
  have hpath : ∀ q, (s.enter c p).In c q → p = q := by
    intro q hq
    simpa [State.enter] using hq.2
  refine ⟨⟨?_, ?_⟩, ?_, ?_, ?_, ?_⟩
  · intro l d
    by_cases hd : d = c
    · subst hd
      simp [State.enter, h.sound.holder_iff]
    · simp [State.enter, hd, h.sound.holder_iff]
  · intro d
    by_cases hd : d = c
    · subst hd
      simpa [State.enter] using h.sound.nodup d
    · simpa [State.enter, hd] using h.sound.nodup d
  · intro d
    by_cases hd : d = c
    · subst hd
      simp [State.enter, hheld, p.heldAfter_script]
    · simpa [State.enter, hd] using h.ends d
  · intro d hd'
    by_cases hd : d = c
    · exact ⟨p, by simp [State.enter, hd]⟩
    · simpa [State.enter, hd] using h.busy d (by simpa [State.enter, hd] using hd')
  · intro d q hq
    by_cases hd : d = c
    · subst hd
      simp only [State.enter, update_self, Option.some.injEq] at hq ⊢
      subst hq
      rw [hheld]
      exact ⟨Path.ordered_printRank, Path.ordered_inputRank⟩
    · simp only [State.enter, update_of_ne hd] at hq ⊢
      exact h.ordered d q hq
  · intro d e q q' hd he hboth
    by_cases hdc : d = c
    · subst hdc
      obtain rfl := hpath q hd
      by_cases hec : e = d
      · subst hec
        obtain rfl := hpath q' he
        rw [Path.not_tableUnderCons hboth.1] at hboth
        cases hboth.2
      · exact (hsep e q' hec (hin e q' hec he)).1 hboth
    · by_cases hec : e = c
      · subst hec
        obtain rfl := hpath q' he
        exact (hsep d q hdc (hin d q hdc hd)).2 ⟨hboth.2, hboth.1⟩
      · exact h.separate d e q q' (hin d q hdc hd) (hin e q' hec he) hboth

theorem advance (h : Inv s) (hs : step s (.advance c) = some t) : Inv t := by
  obtain ⟨locks, hlocks, rfl⟩ := Option.map_eq_some_iff.1 hs
  obtain ⟨hother, hbusy, hends, hordered⟩ := advance_thread hlocks
  have hin : ∀ d q, State.In { s with locks := locks } d q → s.In d q := by
    intro d q hq
    by_cases hd : d = c
    · exact ⟨hd ▸ hbusy, hq.2⟩
    · exact ⟨hother d hd ▸ hq.1, hq.2⟩
  refine ⟨h.sound.advance hlocks, ?_, ?_, ?_, ?_⟩
  · intro d
    by_cases hd : d = c
    · subst hd
      exact hends.trans (h.ends d)
    · simp only [hother d hd]
      exact h.ends d
  · intro d hd'
    by_cases hd : d = c
    · exact h.busy d (hd ▸ hbusy)
    · exact h.busy d (hother d hd ▸ hd')
  · intro d q hq
    obtain ⟨hprint, hinput⟩ := h.ordered d q hq
    by_cases hd : d = c
    · subst hd
      exact ⟨fun hp => hordered _ (hprint hp), fun hp => hordered _ (hinput hp)⟩
    · simp only [hother d hd]
      exact ⟨hprint, hinput⟩
  · intro d e q q' hd he
    exact h.separate d e q q' (hin d q hd) (hin e q' he)

omit [DecidableEq C] in
theorem no_cycle (h : Inv s) (c : C) : ¬ Relation.TransGen (WaitsFor s.locks) c c := by
  by_cases hprint : ∃ d p, s.In d p ∧ p.consUnderTable = true
  · obtain ⟨d, p, hd, hp⟩ := hprint
    refine no_wait_cycle h.sound (r := printRank) (fun e => ?_) c
    by_cases he : (s.locks.thread e).todo = []
    · exact ordered_of_idle he _
    · obtain ⟨q, hq⟩ := h.busy e he
      refine (h.ordered e q hq).1 (Bool.eq_false_iff.2 fun htable => ?_)
      exact h.separate d e p q hd ⟨he, hq⟩ ⟨hp, htable⟩
  · refine no_wait_cycle h.sound (r := inputRank) (fun e => ?_) c
    by_cases he : (s.locks.thread e).todo = []
    · exact ordered_of_idle he _
    · obtain ⟨q, hq⟩ := h.busy e he
      refine (h.ordered e q hq).2 (Bool.eq_false_iff.2 fun hcons => ?_)
      exact hprint ⟨e, q, ⟨he, hq⟩, hcons⟩

end Inv

variable [DecidableEq C]

/-- In a run in which the two kinds of paths are kept apart, no cycle of CPUs
wait for each other's locks. -/
theorem no_deadlock_of_separate {es : List (Event C)} {s : State C}
    (hrun : run step (initial C) es = some s) (hsep : Meets step Separate (initial C) es)
    (c : C) : ¬ Relation.TransGen (WaitsFor s.locks) c c := by
  have hinv : Inv s := by
    refine hsep.invariant (I := Inv) (Inv.initial C) (fun t e u ht he hs => ?_) hrun
    cases e with
    | start c p => exact ht.start hs he
    | advance c => exact ht.advance hs
  exact hinv.no_cycle c

/-- `print_syscalls` on one CPU and a key press on another. -/
def printAndType : List (Event (Fin 2)) :=
  [.start 0 (.printSyscalls 1 0), .start 1 (.consoleintr 1 0), .advance 0, .advance 1]

/-- Each of the two CPUs waits for the lock that the other one holds. -/
theorem printAndType_deadlock :
    ∃ s, run step (initial (Fin 2)) printAndType = some s ∧
      Relation.TransGen (WaitsFor s.locks) 0 0 := by
  refine ⟨_, rfl, Relation.TransGen.tail (.single (b := 1) ?_) ?_⟩
  · exact ⟨.cons, ⟨_, rfl⟩, rfl⟩
  · exact ⟨.ptable, ⟨_, rfl⟩, rfl⟩

def psAndExit : List (Event (Fin 2)) := [.start 0 (.ps 1), .advance 0, .start 1 .exit]

theorem no_deadlock_of_separate_psAndExit :
    ∃ s, run step (initial (Fin 2)) psAndExit = some s ∧ WaitsFor s.locks 1 0 ∧
      ¬ Relation.TransGen (WaitsFor s.locks) 1 1 := by
  have hexit : Path.exit.consUnderTable = false ∧ Path.exit.tableUnderCons = false := by
    decide
  have hsep : Meets step Separate (initial (Fin 2)) psAndExit := by
    refine .cons (fun d q _ hq => absurd rfl hq.1) fun t _ => .cons trivial fun u _ => ?_
    refine .cons (fun d q _ _ => ⟨?_, ?_⟩) fun v _ => meets_nil
    · simp [hexit.1]
    · simp [hexit.2]
  refine ⟨_, rfl, ⟨.ptable, ⟨_, rfl⟩, rfl⟩, ?_⟩
  exact no_deadlock_of_separate (show run step (initial (Fin 2)) psAndExit = some _ from rfl) hsep 1

end Xv6.Spinlock
