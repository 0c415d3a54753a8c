import Xv6.PTable.Change

/-!
# The history of the processes

A slot of the table is used by one process after another. `History` numbers the processes in
the order of their creation, so that nothing below rests on two processes having different
pids, and records, next to the state, who forked whom, which processes have exited, what
`wait` has returned, and which processes `kill` has named or a trap has ended. The records
follow the effects of the steps and have no influence on them.
-/

namespace Xv6.PTable

open Function

/-- A return of `wait`: the number of the child, that of the caller, and the pid. -/
structure Return where
  child : ℕ
  caller : ℕ
  pid : BitVec 32
  deriving DecidableEq

structure History (C : Type*) where
  state : State C
  /-- How many processes have been created. -/
  births : ℕ
  /-- The number of the process that uses a slot. -/
  stamp : Slot → ℕ
  forker : ℕ → ℕ
  pidOf : ℕ → BitVec 32
  exited : List ℕ
  returned : List Return
  /-- The processes that were in the table when `kill` was called with their pid, and those
  that trapped. -/
  marked : List ℕ

namespace History

variable {C : Type*} {h k : History C}

def named (h : History C) (pid : BitVec 32) : List Slot :=
  (List.finRange nProc).filter fun q =>
    (h.state.proc q).state ≠ .unused ∧ (h.state.proc q).pid = pid

def note (h : History C) (t : State C) : Effect → History C
  | .quiet | .fail _ _ => { h with state := t }
  | .kill pid => { h with state := t, marked := (h.named pid).map h.stamp ++ h.marked }
  | .trap p => { h with state := t, marked := h.stamp p :: h.marked }
  | .exit p => { h with state := t, exited := h.stamp p :: h.exited }
  | .reap p q =>
    { h with
      state := t
      returned := ⟨h.stamp q, h.stamp p, (h.state.proc q).pid⟩ :: h.returned }
  | .alloc p np =>
    { h with
      state := t
      births := h.births + 1
      stamp := update h.stamp np h.births
      forker := update h.forker h.births (h.stamp p)
      pidOf := update h.pidOf h.births (t.proc np).pid }

@[simp] theorem note_state (h : History C) (t : State C) (e : Effect) : (h.note t e).state = t := by
  cases e <;> rfl

/-! The new process of `allocproc` gets the next number, and what is recorded of the others
stays. -/

section Alloc

variable {t : State C} {p np q : Slot} {n : ℕ}

theorem stamp_alloc_self : (h.note t (.alloc p np)).stamp np = h.births :=
  update_self ..

theorem stamp_alloc_of_ne (hq : q ≠ np) : (h.note t (.alloc p np)).stamp q = h.stamp q :=
  update_of_ne hq ..

theorem forker_alloc_self : (h.note t (.alloc p np)).forker h.births = h.stamp p :=
  update_self ..

theorem forker_alloc_of_lt (hn : n < h.births) : (h.note t (.alloc p np)).forker n = h.forker n :=
  update_of_ne hn.ne ..

theorem pidOf_alloc_self : (h.note t (.alloc p np)).pidOf h.births = (t.proc np).pid :=
  update_self ..

theorem pidOf_alloc_of_lt (hn : n < h.births) : (h.note t (.alloc p np)).pidOf n = h.pidOf n :=
  update_of_ne hn.ne ..

end Alloc

def next [DecidableEq C] (h : History C) (e : Event C) : Option (History C) :=
  (PTable.next h.state e).map fun t => h.note t (h.state.effect e)

/-- After `userinit`, which has created process 0. -/
def userinit (C : Type*) (initproc : Slot) (kstack pgdir : ℕ) : History C where
  state := PTable.userinit C initproc kstack pgdir
  births := 1
  stamp _ := 0
  forker _ := 0
  pidOf _ := 1
  exited := []
  returned := []
  marked := []

/-- What every step needs to have its effect. -/
structure Ready (h : History C) : Prop where
  inv : Inv h.state
  barred : h.state.pc h.state.initproc ≠ .holding .exit

theorem ready_userinit (initproc : Slot) (kstack pgdir : ℕ) :
    Ready (userinit C initproc kstack pgdir) :=
  ⟨Inv.userinit C initproc kstack pgdir, by simp [userinit, PTable.userinit]⟩

theorem Ready.effects [DecidableEq C] (hr : Ready h) {e : Event C} (hs : h.next e = some k) :
    ∃ t, k = h.note t (h.state.effect e) ∧ Effects h.state t (h.state.effect e) := by
  obtain ⟨t, ht, rfl⟩ := Option.map_eq_some_iff.1 hs
  exact ⟨t, rfl, Effects.next hr.barred hr.inv ht⟩

theorem inv_next [DecidableEq C] {s t : State C} {e : Event C} (hinv : Inv s)
    (hs : PTable.next s e = some t) : Inv t := by
  cases e with
  | act c a => exact hinv.step hs
  | trap c =>
    simp only [PTable.next, State.trap] at hs
    split at hs
    case h_2 => cases hs
    case h_1 p p' hstack hcurrent =>
      obtain ⟨-, rfl⟩ := Option.ite_some_none_eq_some.1 hs
      exact hinv.wakeProc p' _ ⟨rfl, rfl, .inl rfl⟩

theorem Ready.next [DecidableEq C] (hr : Ready h) {e : Event C} (hs : h.next e = some k) :
    Ready k := by
  obtain ⟨t, ht, rfl⟩ := Option.map_eq_some_iff.1 hs
  have heffects := Effects.next hr.barred hr.inv ht
  refine ⟨by simpa using inv_next hr.inv ht, ?_⟩
  rw [note_state, heffects.initproc]
  exact heffects.barred

end History

end Xv6.PTable
