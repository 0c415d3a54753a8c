import Xv6.PTable.History

/-!
# Which process kill ends

`kill` takes the first slot with the given pid, whatever its state, and only `wait` clears
`killed`. A free slot keeps the pid 0 that `wait` has left there, or the pid of a `fork` that
has failed. `kill` therefore succeeds on a free slot, and the next process that uses the slot
is born killed; a process that is killed while `fork` builds it leaves the mark behind when
`fork` fails. In the runs in which neither happens, a process is marked as killed only when
`kill` was called with its pid or when it trapped.
-/

namespace Xv6.PTable

open Machine List Function

variable {C : Type*} {s t : State C} {pid : BitVec 32} {returned : List Return}

/-- `kill` finds no free slot, and `fork` frees no slot whose process has been killed. -/
def Effect.Named (s : State C) : Effect → Prop
  | .kill pid => ∀ q, s.victim pid = some q → (s.proc q).state ≠ .unused
  | .fail _ np => (s.proc np).killed = false
  | _ => True

instance (s : State C) (e : Effect) : Decidable (e.Named s) :=
  match e with
  | .kill pid =>
    inferInstanceAs (Decidable (∀ q, s.victim pid = some q → (s.proc q).state ≠ .unused))
  | .fail _ np => inferInstanceAs (Decidable ((s.proc np).killed = false))
  | .quiet | .trap _ | .exit _ | .reap _ _ | .alloc _ _ => inferInstanceAs (Decidable True)

theorem pid_of_victim {q : Slot} (h : s.victim pid = some q) : (s.proc q).pid = pid := by
  simpa using List.find?_some h

theorem killResult_eq_zero : s.killResult pid = 0 ↔ ∃ q, s.victim pid = some q := by
  unfold State.killResult
  cases hq : s.victim pid with
  | some q => simp
  | none => simp

/-- `kill` returns 0 exactly when there is a process with the pid, as long as it finds no free
slot. -/
theorem killResult_iff (h : Effect.Named s (.kill pid)) :
    s.killResult pid = 0 ↔ ∃ q, (s.proc q).state ≠ .unused ∧ (s.proc q).pid = pid := by
  rw [killResult_eq_zero]
  constructor
  · rintro ⟨q, hq⟩
    exact ⟨q, h q hq, pid_of_victim hq⟩
  · rintro ⟨q, -, hpid⟩
    refine Option.isSome_iff_exists.1 (List.find?_isSome.2 ⟨q, mem_finRange q, ?_⟩)
    simp [hpid]

namespace History

variable {h k : History C}

theorem mem_named {q : Slot} :
    q ∈ h.named pid ↔ (h.state.proc q).state ≠ .unused ∧ (h.state.proc q).pid = pid := by
  simp [named, mem_filter]

/-- A free slot is not marked as killed, and a process only when it was named. -/
structure Marks (h : History C) : Prop where
  free : ∀ q, (h.state.proc q).state = .unused → (h.state.proc q).killed = false
  used : ∀ q, (h.state.proc q).state ≠ .unused → (h.state.proc q).killed = true →
    h.stamp q ∈ h.marked

namespace Marks

theorem userinit (C : Type*) (initproc : Slot) (kstack pgdir : ℕ) :
    Marks (userinit C initproc kstack pgdir) := by
  have hkilled : ∀ q, ((PTable.userinit C initproc kstack pgdir).proc q).killed = false := by
    intro q
    simp only [PTable.userinit]
    split_ifs <;> rfl
  refine ⟨fun q _ => hkilled q, fun q _ hq => ?_⟩
  exact absurd ((hkilled q).symm.trans hq) (by decide)

theorem of_killed (hm : Marks h) {t : State C} {exited marked : List ℕ}
    (hmarked : h.marked ⊆ marked)
    (hunused : ∀ q, (t.proc q).state = .unused ↔ (h.state.proc q).state = .unused)
    (hkilled : ∀ q, (t.proc q).killed = (h.state.proc q).killed ∨
      (h.state.proc q).state ≠ .unused ∧ h.stamp q ∈ marked) :
    Marks { h with state := t, exited := exited, returned := returned, marked := marked } := by
  refine ⟨fun q hq => ?_, fun q hq hk => ?_⟩
  · have hq' := (hunused q).1 hq
    rcases hkilled q with hsame | ⟨hused, -⟩
    · exact hsame.trans (hm.free q hq')
    · exact absurd hq' hused
  · have hq' : (h.state.proc q).state ≠ .unused := fun hu => hq ((hunused q).2 hu)
    rcases hkilled q with hsame | ⟨-, hmem⟩
    · exact hmarked (hm.used q hq' (hsame.symm.trans hk))
    · exact hmem

/-- A change of one slot that leaves no mark on a free one. -/
theorem update (hm : Marks h) {t : State C} {np : Slot} {x : Proc}
    (hproc : t.proc = Function.update h.state.proc np x)
    (hfree : x.state = .unused → x.killed = false)
    (hused : x.state ≠ .unused → x.killed = true → h.stamp np ∈ h.marked)
    : Marks { h with state := t, returned := returned } := by
  refine ⟨fun q hq => ?_, fun q hq hk => ?_⟩
  · by_cases hqn : q = np
    · subst hqn
      rw [hproc, update_self] at hq ⊢
      exact hfree hq
    · rw [hproc, update_of_ne hqn] at hq ⊢
      exact hm.free q hq
  · by_cases hqn : q = np
    · subst hqn
      rw [hproc, update_self] at hq hk
      exact hused hq hk
    · rw [hproc, update_of_ne hqn] at hq hk
      exact hm.used q hq hk

theorem alloc (hm : Marks h) {t : State C} {p np : Slot} {x : Proc}
    (hproc : t.proc = Function.update h.state.proc np x) (hnp : (h.state.proc np).state = .unused)
    (hx : x.state = .embryo ∧ x.killed = (h.state.proc np).killed) :
    Marks (h.note t (.alloc p np)) := by
  have hborn : (t.proc np).killed = false := by
    rw [hproc, update_self, hx.2, hm.free np hnp]
  have hother : ∀ q ≠ np, t.proc q = h.state.proc q := fun q hq => by
    rw [hproc, update_of_ne hq]
  refine ⟨fun q hq => ?_, fun q hq hk => ?_⟩
  · change (t.proc q).state = .unused at hq
    change (t.proc q).killed = false
    by_cases hqn : q = np
    · rwa [hqn]
    · rw [hother q hqn] at hq ⊢
      exact hm.free q hq
  · change (t.proc q).state ≠ .unused at hq
    change (t.proc q).killed = true at hk
    by_cases hqn : q = np
    · simp [hqn, hborn] at hk
    · rw [hother q hqn] at hq hk
      change Function.update h.stamp np h.births q ∈ h.marked
      rw [update_of_ne hqn]
      exact hm.used q hq hk

theorem step (hm : Marks h) (hinv : Inv h.state) {t : State C} {e : Effect}
    (he : Effects h.state t e) (hnamed : e.Named h.state) : Marks (h.note t e) := by
  cases he.change with
  | keep hk hkilled =>
    exact hm.of_killed (List.Subset.refl _) hk.unused fun q => .inl (hkilled q)
  | kill pid hk hkilled =>
    refine hm.of_killed (subset_append_right _ _) hk.unused fun q => ?_
    rw [hkilled]
    split_ifs with hq
    · have hused := hnamed q hq
      refine .inr ⟨hused, mem_append_left _ (mem_map_of_mem ?_)⟩
      exact mem_named.2 ⟨hused, pid_of_victim hq⟩
    · exact .inl rfl
  | trap p hp hk hkilled =>
    refine hm.of_killed (subset_cons_self _ _) hk.unused fun q => ?_
    rw [hkilled]
    split_ifs with hq
    · subst hq
      exact .inr ⟨by simp [hp], mem_cons_self⟩
    · exact .inl rfl
  | exit p hexit =>
    exact hm.of_killed (List.Subset.refl _) hexit.unused fun q => .inl (hexit.killed q)
  | reap p q x hproc hfork hp hparent hq hx =>
    exact hm.update hproc (fun _ => hx.2) fun hused => absurd hx.1 hused
  | alloc p np x hproc hfork hp hnp hx => exact hm.alloc hproc hnp ⟨hx.1, hx.2.2⟩
  | build p np x f hproc hfork hp hx =>
    refine hm.update hproc (fun hu => ?_) fun _ hk => hm.used np ?_ (hx.2.2.symm.trans hk)
    · simp [hx.1] at hu
    · rw [hinv.embryo_of_child hp]
      simp
  | fail p np x hproc hfork hp hx =>
    exact hm.update hproc (fun _ => hx.2.trans hnamed) fun hused => absurd hx.1 hused
  | start p np hp hproc hfork =>
    refine hm.update hproc (by simp) fun _ => hm.used np ?_
    rw [hinv.embryo_of_child (p := p) (by rw [hp]; rfl)]
    simp

end Marks

end History

/-- In every run in which `kill` finds no free slot and `fork` frees no killed one, a process
is marked as killed only when it was named or trapped, a new process is not, and the next
`kill` under this condition returns 0 exactly when there is a process with the pid. -/
theorem kill_affects_named [DecidableEq C] {initproc : Slot} {kstack pgdir : ℕ}
    {es : List (Event C)} {h : History C}
    (hrun : run History.next (History.userinit C initproc kstack pgdir) es = some h)
    (hmeets : Meets History.next (fun g e => (g.state.effect e).Named g.state)
      (History.userinit C initproc kstack pgdir) es) :
    (∀ q, (h.state.proc q).state ≠ .unused → (h.state.proc q).killed = true →
      h.stamp q ∈ h.marked) ∧
    (∀ e k p np, h.state.effect e = .alloc p np → h.next e = some k →
      (k.state.proc np).killed = false) ∧
    ∀ pid, Effect.Named h.state (.kill pid) → (h.state.killResult pid = 0 ↔
        ∃ q, (h.state.proc q).state ≠ .unused ∧ (h.state.proc q).pid = pid) := by
  obtain ⟨hready, hmarks⟩ : h.Ready ∧ h.Marks := by
    refine hmeets.invariant (I := fun h : History C => h.Ready ∧ h.Marks) ?_ ?_ hrun
    · exact ⟨History.ready_userinit initproc kstack pgdir,
        History.Marks.userinit C initproc kstack pgdir⟩
    · rintro g e k ⟨hready, hmarks⟩ hnamed hs
      have hready' := hready.next hs
      obtain ⟨t, rfl, heffects⟩ := hready.effects hs
      exact ⟨hready', hmarks.step hready.inv heffects hnamed⟩
  refine ⟨hmarks.used, fun e k p np he hs => ?_, fun pid => killResult_iff⟩
  obtain ⟨t, rfl, heffects⟩ := hready.effects hs
  rw [he] at heffects
  cases heffects.change with
  | alloc _ _ x hproc _ _ hnp hx =>
    rw [History.note_state, hproc, update_self, hx.2.2, hmarks.free np hnp]

def forkAndKill : List (Event (Fin 1)) :=
  [.schedAcquire, .runProc 0, .resume, .release, .acquire .allocproc, .update, .release,
    .allocStack (some 5), .copyuvm (some 6), .acquire (.start 1), .update, .release,
    .acquire (.kill 2), .update, .release].map (Event.act 0)

theorem kill_affects_named_forkAndKill :
    ∃ h, run History.next (History.userinit (Fin 1) 0 3 4) forkAndKill = some h ∧
      (h.state.proc 1).killed = true ∧ h.stamp 1 ∈ h.marked := by
  obtain ⟨h, hh, hkilled, hused⟩ : ∃ h, run History.next (History.userinit (Fin 1) 0 3 4)
      forkAndKill = some h ∧ (h.state.proc 1).killed = true ∧ (h.state.proc 1).state ≠ .unused := by
    decide +kernel
  have hmeets : Meets History.next (fun g e => (g.state.effect e).Named g.state)
      (History.userinit (Fin 1) 0 3 4) forkAndKill := by decide +kernel
  exact ⟨h, hh, hkilled, (kill_affects_named hh hmeets).1 1 hused hkilled⟩

/-- Init calls `kill(0)`. -/
def killZero : List (Event (Fin 1)) :=
  [.schedAcquire, .runProc 0, .resume, .release, .acquire (.kill 0)].map (Event.act 0)

def forkAfterKill : List (Event (Fin 1)) :=
  [.update, .release, .acquire .allocproc, .update, .release, .allocStack (some 5),
    .copyuvm (some 6), .acquire (.start 1), .update, .release].map (Event.act 0)

/-- `kill(0)` returns 0 though no process has the pid 0, and the child that init forks next
has pid 2 and is born killed, though `kill` was never called with its pid. -/
theorem kill_zero_marks_next_child :
    ∃ g h, run History.next (History.userinit (Fin 1) 0 3 4) killZero = some g ∧
      g.state.killResult 0 = 0 ∧
      (∀ q, (g.state.proc q).state ≠ .unused → (g.state.proc q).pid ≠ 0) ∧
      run History.next g forkAfterKill = some h ∧
      (h.state.proc 1).state = .runnable ∧ (h.state.proc 1).pid = 2 ∧
      (h.state.proc 1).killed = true ∧ h.marked = [] := by
  obtain ⟨g, hg, hresult, hnone, h, hh, hborn⟩ : ∃ g, run History.next
      (History.userinit (Fin 1) 0 3 4) killZero = some g ∧ g.state.killResult 0 = 0 ∧
      (∀ q, (g.state.proc q).state ≠ .unused → (g.state.proc q).pid ≠ 0) ∧
      ∃ h, run History.next g forkAfterKill = some h ∧ (h.state.proc 1).state = .runnable ∧
        (h.state.proc 1).pid = 2 ∧ (h.state.proc 1).killed = true ∧ h.marked = [] := by
    decide +kernel
  exact ⟨g, h, hg, hresult, hnone, hh, hborn⟩

end Xv6.PTable
