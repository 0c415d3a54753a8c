import Xv6.Process.Grow

/-!
# Forking

What `allocproc` and `fork` do to the process table. A `fork` that fails leaves files, the
other slots and the free frames as they were. But it never leaves the table itself alone: when
no slot is free, `allocproc` stores the fields for the scheduler after the end of the table,
and when memory is short, the slot it had taken keeps its new `pid`.
-/

namespace Xv6.Process

open Routine PageTable Vm Function Kernel

variable {H O : Type} {lk : Link} {others : O → Option ℕ} {dirs : H → Option ℕ} {loose : Set ℕ}
  {s : Kernel} {h h₀ : H} {pgdir cwd : ℕ}
open PTable (Slot)

section Allocproc

variable {np : Slot}

theorem unused_of_unusedSlot (h : s.unusedSlot = some np) : (s.proc np).state = .unused := by
  have hfound := List.find?_some (p := fun q => decide ((s.proc q).state = .unused)) h
  exact of_decide_eq_true hfound

theorem not_unused_of_unusedSlot (h : s.unusedSlot = none) (p : Slot) :
    (s.proc p).state ≠ .unused := by
  have hnot := List.find?_eq_none.1 h p (List.mem_finRange p)
  exact fun hstate => hnot (decide_eq_true hstate)

/-- The kernel after `allocproc` has found no slot. -/
def Kernel.overrun (s : Kernel) : Kernel :=
  { s with beyond := Sched.fresh s.ticks :: s.beyond }

def Kernel.stackless (s : Kernel) (p : Slot) (m : Mem) : Kernel :=
  ((s.embryo p).setMem m).modifyProc p fun x => { x with kstack := none, state := .unused }

def Kernel.stacked (s : Kernel) (p : Slot) (m : Mem) (kstack : ℕ) : Kernel :=
  ((s.embryo p).setMem m).modifyProc p fun x => { x with kstack := some kstack }

theorem allocproc_spec (hf : Frames lk dirs others loose s.mem) :
    wp allocproc (fun r s' => match r with
      | none => s.unusedSlot = none ∧ s' = s.overrun ∨
          ∃ p m, s.unusedSlot = some p ∧ s' = s.stackless p m ∧ s.mem.stock = 0 ∧
            m.freelist = s.mem.freelist ∧
            Moves lk others (∅ : Set (Spot H O)) dirs dirs loose s.mem m
      | some p => ∃ m f, s.unusedSlot = some p ∧ s' = s.stacked p m f ∧
          s.mem.stock = m.stock + 1 ∧ s.mem.freelist = f :: m.freelist ∧ f ∉ loose ∧
          Moves lk others (∅ : Set (Spot H O)) dirs dirs (insert f loose) s.mem m)
      (fun _ _ => False) s := by
  rw [allocproc, wp_bind, wp_look]
  cases hslot : s.unusedSlot with
  | none => exact .inl ⟨rfl, rfl⟩
  | some p =>
    simp only [wp_bind, wp_update, wp_onMem]
    have hmem : (s.embryo p).mem = s.mem := rfl
    rw [hmem]
    refine wp_mono_ok (kalloc_spec hf) ?_
    rintro (- | f) m ⟨hpage, hrefuse, hrest⟩
    · obtain ⟨hstock, hfree, hf'⟩ := hrest
      exact .inr ⟨p, m, rfl, rfl, hstock, hfree, Moves.kalloc hpage hrefuse hf'⟩
    · obtain ⟨hstock, hfree, hloose, hf'⟩ := hrest
      exact ⟨m, f, rfl, rfl, hstock, hfree, hloose, Moves.kalloc hpage hrefuse hf'⟩

end Allocproc

section Fork

variable [DecidableEq H] {p np : Slot} {Q : ℤ → Kernel → Prop} {E : Stop → Kernel → Prop}

def Kernel.copyless (s : Kernel) (np : Slot) (m : Mem) : Kernel :=
  ((s.embryo np).setMem m).modifyProc np fun x =>
    { x with pgdir := none, kstack := none, state := .unused }

theorem proc_embryo_of_ne (s : Kernel) (hne : p ≠ np) : (s.embryo np).proc p = s.proc p := by
  simp only [embryo, modifyProc, update_of_ne hne]

theorem proc_stacked_of_ne (s : Kernel) (m : Mem) (f : ℕ) (hne : p ≠ np) :
    (s.stacked np m f).proc p = s.proc p := by
  rw [stacked, proc_modifyProc_of_ne _ _ hne, proc_setMem, proc_embryo_of_ne s hne]

/-- Each way in which `fork` ends or goes on, for a process with a directory. -/
theorem wp_fork (hf : Frames lk dirs others loose s.mem) (hnone : dirs h = none)
    (hd₀ : dirs h₀ = some pgdir) (hpgdir : (s.proc p).pgdir = some pgdir)
    (hlive : (s.proc p).state ≠ .unused) (hsz : (s.proc p).sz.toNat ≤ 2 ^ 31)
    (hfull : s.unusedSlot = none → Q (-1) s.overrun)
    (hstackless : ∀ np m, s.unusedSlot = some np → s.mem.stock = 0 →
      m.freelist = s.mem.freelist → Moves lk others (∅ : Set (Spot H O)) dirs dirs loose s.mem m →
      Q (-1) (s.stackless np m)) (hcopyless : ∀ np m, s.unusedSlot = some np →
      s.mem.stock < copyCost (pagesOf (s.proc p).sz) + 1 →
      (∀ f, f ∈ m.freelist ↔ f ∈ s.mem.freelist) →
      Moves lk others (Place.held h) dirs dirs loose s.mem m → Q (-1) (s.copyless np m))
    (hcopied : ∀ np f m₁ m d, s.unusedSlot = some np → f ∉ loose → s.mem.stock = m₁.stock + 1 →
      Moves lk others (∅ : Set (Spot H O)) dirs dirs (insert f loose) s.mem m₁ →
      Copied lk others dirs (update dirs h (some d)) (insert f loose) h pgdir d
        (pagesOf (s.proc p).sz) m₁ m →
      wp (startChild lk p np (s.proc p) cwd d) Q E ((s.stacked np m₁ f).setMem m))
    (hpanic : ∀ e t, CopyPanic pgdir (s.proc p).sz s.mem e → E (.vm e) t) :
    wp (fork lk p cwd) Q E s := by
  have hne : h₀ ≠ h := by
    rintro rfl
    simp [hnone] at hd₀
  rw [fork, wp_bind]
  refine wp_mono_ok (allocproc_spec hf) ?_
  rintro (- | np) s' hpost
  · rcases hpost with ⟨hslot, rfl⟩ | ⟨np, m, hslot, rfl, hstock, hfree, hmoves⟩
    · exact hfull hslot
    · exact hstackless np m hslot hstock hfree hmoves
  obtain ⟨m₁, f, hslot, rfl, hstock, hfree, hloose, hmoves₁⟩ := hpost
  have hpnp : p ≠ np := by
    rintro rfl
    exact hlive (unused_of_unusedSlot hslot)
  have hproc : (s.stacked np m₁ f).proc p = s.proc p := proc_stacked_of_ne s m₁ f hpnp
  have hmem : (s.stacked np m₁ f).mem = m₁ := rfl
  rw [wp_bind, wp_getProc, hproc, hpgdir]
  rw [wp_bind, wp_onMem, hmem]
  refine wp_mono (copyuvm_spec hmoves₁.frames hnone hne hd₀ hsz) ?_ ?_
  · rintro (- | d) m₂ hcopy
    · obtain ⟨hmoves₂, hshort⟩ := hcopy
      simp only [wp_bind, wp_modify]
      rw [freeStack, wp_bind, wp_getProc, proc_modifyProc_self]
      have hstack : (((s.stacked np m₁ f).setMem m₂).proc np).kstack = some f := by
        rw [proc_setMem, stacked, proc_modifyProc_self]
      rw [hstack]
      simp only [wp_bind, wp_modify, wp_onMem, wp_pure, mem_modifyProc, mem_setMem]
      refine wp_mono_ok (kfree_spec hmoves₂.frames (Set.mem_insert f loose)) ?_
      rintro _ m₃ ⟨hmoves₃, hfree₃, -⟩
      rw [Set.insert_sdiff_self_of_notMem hloose] at hmoves₃
      have hstate : ((((((s.stacked np m₁ f).setMem m₂).modifyProc np fun y =>
          { y with pgdir := none }).setMem m₃).modifyProc np fun y =>
          { y with kstack := none }).modifyProc np fun y => { y with state := .unused }) =
          s.copyless np m₃ := by
        simp only [copyless, stacked, modifyProc, setMem,
          update_self, update_idem]
      rw [hstate]
      refine hcopyless np m₃ hslot (by omega) (fun g => ?_)
        (((hmoves₁.mono (Set.empty_subset _)).trans hmoves₂).trans
          (hmoves₃.mono (Set.empty_subset _)))
      have hsame := hmoves₂.freelist_iff (f := g) hmoves₁.frames subset_rfl hnone
      rw [hfree₃, hfree, List.mem_cons, List.mem_cons, hsame]
    · exact hcopied np f m₁ m₂ d hslot hloose hstock hmoves₁ hcopy
  · rintro e m₂ ⟨hkind, k, hk, habsent⟩
    refine hpanic e _ ⟨hkind, k, hk, ?_⟩
    obtain ⟨-, -, hptes⟩ := hmoves₁.same (notMem_empty_of_node h₀) hd₀
    rw [← hptes]
    exact habsent

end Fork

section Failing

/-- The process table, the frames and the files are as they were; a slot that was free is. -/
structure TableKept (s s' : Kernel) : Prop where
  beyond : s'.beyond = s.beyond
  free : ∀ q, (s.proc q).state = .unused →
    (s'.proc q).state = .unused ∧ (s'.proc q).pid = 0 ∧ (s'.proc q).kstack = none
  other : ∀ q, (s.proc q).state ≠ .unused → s'.proc q = s.proc q
  frames : ∀ f, f ∈ s'.mem.freelist ↔ f ∈ s.mem.freelist
  files : s'.files = s.files

/-- What a failing `fork` does keep. -/
structure ForkFailed (s s' : Kernel) : Prop where
  stillUnused : ∀ q, (s.proc q).state = .unused → (s'.proc q).state = .unused
  other : ∀ q, s.unusedSlot ≠ some q → s'.proc q = s.proc q
  frames : ∀ f, f ∈ s'.mem.freelist ↔ f ∈ s.mem.freelist
  files : s'.files = s.files

/-- There is a slot, and there are the frames that `fork` needs: a kernel stack and what
`copyuvm` takes. -/
def ForkFits (s : Kernel) (p : Slot) : Prop :=
  (∃ q, (s.proc q).state = .unused) ∧ copyCost (pagesOf (s.proc p).sz) + 1 ≤ s.mem.stock

variable [DecidableEq H] {p np : Slot}

theorem not_kept_of_pid {s' : Kernel} (hslot : s.unusedSlot = some np)
    (hpid : (s'.proc np).pid = s.nextpid) (hnext : 0 < s.nextpid.toInt) : ¬ TableKept s s' := by
  intro hkept
  have hzero := (hkept.free np (unused_of_unusedSlot hslot)).2.1
  rw [← hpid, hzero] at hnext
  exact absurd hnext (by decide)

theorem forkFailed_of_slot {s' : Kernel} (hslot : s.unusedSlot = some np)
    (hstate : (s'.proc np).state = .unused) (hother : ∀ q ≠ np, s'.proc q = s.proc q)
    (hframes : ∀ f, f ∈ s'.mem.freelist ↔ f ∈ s.mem.freelist) (hfiles : s'.files = s.files) :
    ForkFailed s s' := by
  refine ⟨fun q hq => ?_, fun q hq => hother q fun heq => hq (heq ▸ hslot), hframes, hfiles⟩
  by_cases hqn : q = np
  · rw [hqn, hstate]
  · rw [hother q hqn, hq]

theorem fileCall_proc {α : Type} (p : Slot) (free : Option ℕ)
    (x : OpenFiles.KernelM Slot ℕ α) (s : Kernel) :
    wp (fileCall lk p free x) (fun _ s' => s'.proc = s.proc) (fun _ _ => True) s := by
  simp only [fileCall, wp_bind, wp_look, wp_onFiles, wp_onMem, wp_pure]
  rw [wp]
  split
  · rw [wp]
    split
    · rfl
    · trivial
  · trivial

theorem startChild_pid {pid : BitVec 32} {x : Proc} {d : ℕ} (hpid : (s.proc np).pid = pid) :
    wp (startChild lk p np x cwd d) (fun r _ => r = pid.toInt) (fun _ _ => True) s := by
  simp only [startChild, wp_bind, wp_modify]
  refine wp_mono (fileCall_proc p none _ _) ?_ fun _ _ _ => trivial
  intro _ s' hproc
  simp only [wp_look, wp_pure, proc_modifyProc_self, hproc, hpid]

/-- A failing `fork` never leaves the process table as it was: it does if and only if it does
not fail, which is when there is a slot and memory for it. Other slots, the free frames and the
files are kept. When `fork` does not fit it returns, unless a page of the parent is missing. -/
theorem fork_keeps_table_iff (hf : Frames lk dirs others loose s.mem) (hnone : dirs h = none)
    (hd₀ : dirs h₀ = some pgdir) (hpgdir : (s.proc p).pgdir = some pgdir)
    (hlive : (s.proc p).state ≠ .unused) (hsz : (s.proc p).sz.toNat ≤ 2 ^ 31)
    (hnext : 0 < s.nextpid.toInt) :
    wp (fork lk p cwd) (fun r s' => ((r = -1 → TableKept s s') ↔ ForkFits s p) ∧
        (r = -1 → ForkFailed s s'))
      (fun e _ => ForkFits s p ∨ ∃ v, e = .vm v ∧ CopyPanic pgdir (s.proc p).sz s.mem v) s := by
  refine wp_fork hf hnone hd₀ hpgdir hlive hsz ?_ ?_ ?_ ?_ ?_
  · intro hslot
    refine ⟨iff_of_false (fun hkept => ?_) ?_, fun _ => ⟨fun _ h => h, fun _ _ => rfl,
      fun _ => Iff.rfl, rfl⟩⟩
    · exact List.cons_ne_self _ _ (hkept rfl).beyond
    · rintro ⟨⟨q, hq⟩, -⟩
      exact not_unused_of_unusedSlot hslot q hq
  · intro np m hslot hstock hfree _
    have hproc : (s.stackless np m).proc np = { s.proc np with
          kstack := none, state := .unused, pid := s.nextpid, sched := Sched.fresh s.ticks } := by
      simp only [stackless, embryo, proc_modifyProc_self, proc_setMem]
    refine ⟨iff_of_false (fun hkept => ?_) ?_, fun _ => ?_⟩
    · exact not_kept_of_pid hslot (by rw [hproc]) hnext (hkept rfl)
    · rintro ⟨-, hfits⟩
      omega
    · refine forkFailed_of_slot hslot (by rw [hproc]) (fun q hq => ?_) (fun f => ?_) rfl
      · rw [stackless, proc_modifyProc_of_ne _ _ hq, proc_setMem, proc_embryo_of_ne s hq]
      · show f ∈ m.freelist ↔ _
        rw [hfree]
  · intro np m hslot hstock hfree _
    have hproc : (s.copyless np m).proc np = { s.proc np with
          pgdir := none, kstack := none, state := .unused, pid := s.nextpid,
          sched := Sched.fresh s.ticks } := by
      simp only [copyless, embryo, proc_modifyProc_self, proc_setMem]
    refine ⟨iff_of_false (fun hkept => ?_) ?_, fun _ => ?_⟩
    · exact not_kept_of_pid hslot (by rw [hproc]) hnext (hkept rfl)
    · rintro ⟨-, hfits⟩
      omega
    · refine forkFailed_of_slot hslot (by rw [hproc]) (fun q hq => ?_) hfree rfl
      rw [copyless, proc_modifyProc_of_ne _ _ hq, proc_setMem, proc_embryo_of_ne s hq]
  · intro np f m₁ m d hslot _ hstock _ hcopied
    have hpid : (((s.stacked np m₁ f).setMem m).proc np).pid = s.nextpid := by
      simp only [proc_setMem, stacked, embryo, proc_modifyProc_self]
    have hfits : ForkFits s p := by
      have hsum := hcopied.stock
      exact ⟨⟨np, unused_of_unusedSlot hslot⟩, by omega⟩
    refine wp_mono (startChild_pid hpid) ?_ fun _ _ _ => .inl hfits
    rintro r s' rfl
    exact ⟨iff_of_true (fun hneg => by omega) hfits, fun hneg => by omega⟩
  · exact fun e _ hpanic => .inr ⟨e, rfl, hpanic⟩

theorem fork_keeps_table_iff_two : ∃ (s : Kernel) (d : ℕ), ForkFits s 0 ∧
    wp (fork smallLink 0 rootIno) (fun r s' => ((r = -1 → TableKept s s') ↔ ForkFits s 0) ∧
        (r = -1 → ForkFailed s s'))
      (fun e _ => ForkFits s 0 ∨ ∃ v, e = .vm v ∧ CopyPanic d (s.proc 0).sz s.mem v) s := by
  obtain ⟨s, d, hf, hsized, hsz, hstate, -, hunused, hnext, -, hstock⟩ := exists_process
  have hcost : copyCost (pagesOf (s.proc 0).sz) = 68 := by
    rw [hsz]
    decide
  refine ⟨s, d, ⟨⟨1, hunused⟩, by omega⟩, fork_keeps_table_iff (h := true) hf rfl
    (update_self false (some d) fun _ => none) hsized.pgdir ?_ ?_ hnext⟩
  · rw [hstate]
    decide
  · rw [hsz]
    decide

def fullTable : Kernel :=
  { blank freshMem firstFiles with
    proc := fun p => { unusedProc with state := .runnable, pid := BitVec.ofNat 32 (p + 1) }
    nextpid := 65 }

def noFrames : Kernel := oneProcess { freshMem with freelist := [] } 300 301 4096

/-- With a full table `fork` stores after its end. Without memory it leaves the `pid` 2 in
slot 1. -/
theorem fork_fails_dirty :
    (fork smallLink 0 rootIno fullTable).1.toOption = some (-1) ∧
    (fork smallLink 0 rootIno fullTable).2.beyond ≠ fullTable.beyond ∧
    (fork smallLink 0 rootIno noFrames).1.toOption = some (-1) ∧
    (noFrames.proc 1).state = .unused ∧ (noFrames.proc 1).pid = 0 ∧
    ((fork smallLink 0 rootIno noFrames).2.proc 1).state = .unused ∧
    ((fork smallLink 0 rootIno noFrames).2.proc 1).pid = 2 := by
  refine ⟨by decide, by decide, by decide, by decide, by decide, by decide, by decide⟩

end Failing

end Xv6.Process
