import Mathlib.Algebra.Order.BigOperators.Group.Finset
import Xv6.GroupCommit.Isolation

/-!
# The reservation of `begin_op`

`begin_op` admits an operation when the blocks logged so far and `MAXOPBLOCKS`
more for every operation do not exceed `LOGSIZE`, but `log_write` panics as soon
as `LOGSIZE - 1` blocks are logged, because the log that `mkfs` lays out has
`LOGSIZE` blocks with its header. Operations that use all of their reservation
reach the panic, and operations that leave one block of it unused never do.
-/

namespace Xv6.GroupCommit

open Machine List Finset

variable {P : Type*} [DecidableEq P] {es : List (Event P)} {s t : State P} {p : P} {b : ℕ}

def Event.joinCalls (p : P) (bs : List ℕ) : Event P → List ℕ
  | .beginOp q => if q = p then [] else bs
  | .testRoom q b => if q = p then addBlock bs b else bs
  | _ => bs

/-- The distinct blocks on which `p` has called `log_write` since it last
entered `begin_op`. -/
def calledBy (p : P) (es : List (Event P)) : List ℕ := es.foldl (Event.joinCalls p) []

theorem step_testRoom (hs : step s (.testRoom p b) = some t) (htooBig : t.halted = some .tooBig) :
    logSize ≤ s.lh.length ∨ s.size - 1 ≤ s.lh.length := by
  have hrunning := (step_facts hs).running
  obtain ⟨-, hstep⟩ := Option.ite_none_left_eq_some.1 hs
  obtain ⟨-, hstep⟩ := Option.ite_none_right_eq_some.1 hstep
  split_ifs at hstep with hroom
  · exact hroom
  · cases hstep
    cases hrunning.symm.trans htooBig

theorem run_size {size : ℕ} (hrun : run step (initlog P size) es = some s) : s.size = size :=
  run_invariant (I := fun s => s.size = size) rfl
    (fun _ _ _ ht hs => (step_facts hs).size.trans ht) hrun

/-- When a process calls `log_write`, the header lists the blocks logged since
the last commit. -/
theorem Inv.lh_eq_group {ops : Finset P} {owner : Option P} (h : Inv es s ops owner)
    (hp : (s.pc p).role = .op) : s.lh = group es := by
  have hprogress := h.progress
  rw [h.owner_eq_none hp] at hprogress
  exact hprogress.1

/-- What `begin_op` has found when it admits a process. -/
theorem step_beginOp (hs : step s (.beginOp p) = some t) : t.lh = s.lh ∧ ((t.pc p).role = .op →
    s.committing = false ∧ s.lh.length + (s.outstanding + 1) * maxOpBlocks ≤ logSize) := by
  obtain ⟨-, hstep⟩ := Option.ite_none_left_eq_some.1 hs
  simp only [State.beginOp] at hstep
  split_ifs at hstep with hpc hcommitting hroom
  · cases hstep
    simp [State.goto, Pc.role]
  · cases hstep
    simp [State.goto, Pc.role]
  · cases hstep
    exact ⟨rfl, fun _ => ⟨Bool.eq_false_of_not_eq_true hcommitting, not_lt.1 hroom⟩⟩

theorem step_record (hs : step s (.record p b) = some t) :
    (s.pc p).role = .op ∧ t.lh = addBlock s.lh b := by
  obtain ⟨-, hstep⟩ := Option.ite_none_left_eq_some.1 hs
  obtain ⟨⟨hpc, -⟩, rfl⟩ := Option.ite_some_none_eq_some.1 hstep
  rw [hpc]
  exact ⟨rfl, rfl⟩

/-- The blocks that `p` may still log, if it is to log fewer than `MAXOPBLOCKS`. -/
def allowance (es : List (Event P)) (p : P) : ℕ := maxOpBlocks - 1 - (loggedBy p es).length

/-- There is room for what is logged and for what the operations may still log. -/
def Reserved (es : List (Event P)) (s : State P) (ops : Finset P) : Prop :=
  s.lh.length + ops.sum (allowance es) ≤ logSize - 2

section Step

variable {e : Event P} {ops ops' : Finset P} {owner owner' : Option P}

theorem allowance_concat (h : e.joinOp p (loggedBy p es) = loggedBy p es) :
    allowance (es ++ [e]) p = allowance es p := by
  rw [allowance, loggedBy_concat, h, allowance]

theorem Reserved.mono (hres : Reserved es s ops) (hops : ops' ⊆ ops)
    (hlh : t.lh.length ≤ s.lh.length)
    (hop : ∀ q ∈ ops', e.joinOp q (loggedBy q es) = loggedBy q es) :
    Reserved (es ++ [e]) t ops' := by
  have hsum : ops'.sum (allowance (es ++ [e])) ≤ ops.sum (allowance es) := by
    rw [sum_congr rfl fun q hq => allowance_concat (hop q hq)]
    exact sum_le_sum_of_subset hops
  unfold Reserved at hres ⊢
  omega

variable (h : Inv es s ops owner) (h' : Inv (es ++ [e]) t ops' owner') (hs : step s e = some t)
include h h' hs

theorem mem_ops_of_mem {q : P} (hq : q ∈ ops') (hne : e ≠ .beginOp q) : q ∈ ops :=
  (h.roles.op q).2 ((step_facts hs).role_op q ((h'.roles.op q).1 hq) hne)

/-- `begin_op` sets `MAXOPBLOCKS` aside for each operation, one more than it will use, and
the first operation of a group finds the header empty. -/
theorem reserved_beginOp (hres : Reserved es s ops) (he : e = .beginOp p) :
    Reserved (es ++ [e]) t ops' := by
  subst he
  obtain ⟨hlh, hadmitted⟩ := step_beginOp hs
  have hother : ∀ q ∈ ops', q ≠ p → q ∈ ops := fun q hq hqp =>
    mem_ops_of_mem h h' hs hq (by simpa using hqp.symm)
  by_cases hp : p ∈ ops'
  · obtain ⟨hcommitting, hroom⟩ := hadmitted ((h'.roles.op p).1 hp)
    have hcard : ops'.card ≤ ops.card + 1 := by
      refine (card_le_card fun q hq => ?_).trans (card_insert_le p ops)
      rw [mem_insert, or_iff_not_imp_left]
      exact hother q hq
    have hsum : ops'.sum (allowance (es ++ [.beginOp p])) ≤ ops'.card * (maxOpBlocks - 1) :=
      sum_le_card_nsmul _ _ _ fun q _ => Nat.sub_le _ _
    have hempty : ops.card = 0 → s.lh.length = 0 := by
      intro hcard
      have howner : owner = none := by simpa [hcommitting] using h.committing
      rw [h.settled howner (card_eq_zero.1 hcard)]
      rfl
    rw [h.outstanding] at hroom
    unfold Reserved
    rw [hlh]
    simp only [maxOpBlocks, logSize] at hroom hsum ⊢
    omega
  · have hne : ∀ q ∈ ops', q ≠ p := fun q hq hqp => hp (hqp ▸ hq)
    refine hres.mono (fun q hq => hother q hq (hne q hq)) (by rw [hlh]) fun q hq => ?_
    exact if_neg (hne q hq).symm

/-- A block that is new in the header is new for the operation that logs it. -/
theorem reserved_record (hres : Reserved es s ops) (he : e = .record p b)
    (hlt : (loggedBy p (es ++ [e])).length < maxOpBlocks) : Reserved (es ++ [e]) t ops' := by
  subst he
  obtain ⟨hrole, hlh⟩ := step_record hs
  have hops : ops' ⊆ ops := fun q hq => mem_ops_of_mem h h' hs hq (by simp)
  have hmem := (h.roles.op p).2 hrole
  have hle : ∀ q ∈ ops, allowance (es ++ [.record p b]) q ≤ allowance es q := by
    intro q _
    rw [allowance, loggedBy_concat, allowance, Event.joinOp, addBlock]
    split_ifs
    · rfl
    · rw [length_append]
      omega
    · rfl
  have hsum : ops'.sum (allowance (es ++ [.record p b])) ≤
      ops.sum (allowance (es ++ [.record p b])) := sum_le_sum_of_subset hops
  by_cases hb : b ∈ s.lh
  · have hsum' : ops.sum (allowance (es ++ [.record p b])) ≤ ops.sum (allowance es) :=
      sum_le_sum hle
    unfold Reserved at hres ⊢
    rw [hlh, addBlock, if_pos hb]
    omega
  · have hnew : b ∉ loggedBy p es := fun hlogged =>
      hb (h.lh_eq_group hrole ▸ h.logged p hmem hlogged)
    have hsum' : ops.sum (allowance (es ++ [.record p b])) < ops.sum (allowance es) := by
      refine sum_lt_sum hle ⟨p, hmem, ?_⟩
      rw [loggedBy_concat, Event.joinOp, if_pos rfl, addBlock, if_neg hnew] at hlt
      rw [allowance, loggedBy_concat, allowance, Event.joinOp, if_pos rfl, addBlock, if_neg hnew]
      rw [length_append, length_singleton] at hlt ⊢
      omega
    unfold Reserved at hres ⊢
    rw [hlh, addBlock, if_neg hb, length_append, length_singleton]
    omega

theorem reserved_step (hres : Reserved es s ops)
    (hlt : ∀ p, (loggedBy p (es ++ [e])).length < maxOpBlocks) : Reserved (es ++ [e]) t ops' := by
  by_cases hbegin : ∃ p, e = .beginOp p
  · obtain ⟨p, he⟩ := hbegin
    exact reserved_beginOp h h' hs hres he
  by_cases hrecord : ∃ p b, e = .record p b
  · obtain ⟨p, b, he⟩ := hrecord
    exact reserved_record h h' hs hres he (hlt p)
  simp only [not_exists] at hbegin hrecord
  refine hres.mono (fun q hq => mem_ops_of_mem h h' hs hq (hbegin q))
    ((step_facts hs).length_lh hrecord) fun q _ => ?_
  cases e with
  | beginOp p => exact absurd rfl (hbegin p)
  | record p b => exact absurd rfl (hrecord p b)
  | _ => rfl

end Step

theorem reserved_run {size : ℕ} (hrun : run step (initlog P size) es = some s)
    (hops : ∀ p pre, pre <+: es → (loggedBy p pre).length < maxOpBlocks) :
    ∃ ops owner, Inv es s ops owner ∧ Reserved es s ops := by
  induction es using List.reverseRecOn generalizing s with
  | nil =>
    cases hrun
    exact ⟨∅, none, .initlog size, Nat.zero_le _⟩
  | append_singleton es e ih =>
    obtain ⟨r, hr, he⟩ := run_concat.1 hrun
    obtain ⟨ops, owner, h, hres⟩ :=
      ih hr fun p pre hpre => hops p pre (hpre.trans (prefix_append ..))
    obtain ⟨ops', owner', h'⟩ := h.step he
    exact ⟨ops', owner', h', reserved_step h h' he hres fun p => hops p _ (prefix_refl _)⟩

/-- The reservation is enough for operations that log fewer than `MAXOPBLOCKS` distinct
blocks. -/
theorem reservation_sufficient (hrun : run step (initlog P nlog) es = some s)
    (hops : ∀ p pre, pre <+: es → (loggedBy p pre).length < maxOpBlocks) :
    s.halted ≠ some .tooBig := by
  intro htooBig
  rcases eq_nil_or_concat es with rfl | ⟨pre, e, rfl⟩
  · cases hrun
    cases htooBig
  rw [concat_eq_append] at hrun hops
  obtain ⟨r, hr, he⟩ := run_concat.1 hrun
  obtain ⟨p, b, rfl⟩ := (step_facts he).tooBig htooBig
  obtain ⟨ops, owner, -, hres⟩ :=
    reserved_run hr fun p pre' hpre => hops p pre' (hpre.trans (prefix_append ..))
  have hlh : r.lh.length ≤ 28 := (Nat.le_add_right _ _).trans hres
  have hsize : r.size = 30 := run_size hr
  have hfull : 30 ≤ r.lh.length ∨ r.size - 1 ≤ r.lh.length := step_testRoom he htooBig
  omega

/-- Three operations, each of which logs `n` blocks of its own. -/
def operations (n : ℕ) : List (Event (Fin 3)) :=
  [.beginOp 0, .beginOp 1, .beginOp 2] ++
    (List.finRange 3).flatMap fun p => (List.range n).flatMap fun i =>
      [.testRoom p (n * p.val + i), .testTrans p, .record p (n * p.val + i)]

theorem reservation_sufficient_operations :
    ∃ s, run step (initlog (Fin 3) nlog) (operations 9) = some s ∧ s.lh.length = 27 ∧
      s.halted ≠ some .tooBig := by
  obtain ⟨s, hrun, hlh⟩ : ∃ s, run step (initlog (Fin 3) nlog) (operations 9) = some s ∧
      s.lh.length = 27 := by decide +kernel
  have hops : ∀ p, ∀ pre ∈ (operations 9).inits, (loggedBy p pre).length < maxOpBlocks := by
    decide +kernel
  exact ⟨s, hrun, hlh,
    reservation_sufficient hrun fun p pre hpre => hops p pre ((mem_inits _ _).2 hpre)⟩

def fullOperations : List (Event (Fin 3)) := (operations 10).take 91

/-- The thirtieth block is refused, though no operation exceeds its reservation. -/
theorem fullOperations_tooBig :
    (∀ p, ∀ pre ∈ fullOperations.inits, (calledBy p pre).length ≤ maxOpBlocks) ∧
      (run step (initlog (Fin 3) nlog) fullOperations).map (·.halted) = some (some .tooBig) := by
  decide +kernel

end Xv6.GroupCommit
