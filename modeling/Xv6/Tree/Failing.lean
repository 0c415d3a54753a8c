import Xv6.Tree.Deadlock

/-!
# Calls that fail

`sys_link` takes the link count it has raised back when the new name cannot be entered, and
the other calls that take a path find out that they cannot go on before they have changed
anything. `sys_open` does not: it enters a new file in its directory first and looks for a
file structure and a descriptor afterwards, and when there is none it lets go of the file
and returns `-1`, with the file left in the directory. In every other case a call that
returns `-1` has changed nothing at all.
-/

namespace Xv6.Tree

open Routine Machine

variable {P : Type} {fmt : Format} {devsw : Devices} {k k' : Kernel P} {cwd i : ℕ} {path : Path}

def Call.takesPath : Call P → Bool
  | .sysOpen _ _ | .sysLink _ _ | .sysUnlink _ | .sysMkdir _ | .sysMknod _ _ _
  | .sysChdir _ => true
  | .sysRead _ _ | .sysWrite _ _ | .sysFstat _ | .sysClose _ | .sysDup _ | .exec _ _
  | .fork _ | .exit => false

section Open

variable {p : P} {omode : BitVec 32}

/-- The call makes a new file for which there is no file structure or no descriptor. -/
def Stranded (k : Kernel P) (p : P) (cwd : ℕ) : Call P → Prop
  | .sysOpen path omode => MakesFile k.inode cwd path omode ∧ k.Full p
  | _ => False

theorem Kernel.Full.congr (hfile : k'.file = k.file) (hproc : k'.proc = k.proc)
    (h : k'.Full p) : k.Full p := by
  rcases h with hall | hall
  · refine .inl fun f => ?_
    rw [← hfile]
    exact hall f
  · refine .inr fun fd => ?_
    rw [Kernel.ofile, ← hproc]
    exact hall fd

variable [Fintype P]

theorem Opens.unchanged_iff (h : k.Quiet) (ho : Opens fmt k cwd path omode i k')
    (hfull : k'.Full p) :
    k' = k ↔ ¬ (MakesFile k.inode cwd path omode ∧ k.Full p) := by
  have hfull' := hfull.congr ho.file ho.proc
  cases ho with
  | found _ _ hthere => exact iff_of_true rfl fun hmakes => hthere hmakes.1
  | made hmode hcr =>
    refine iff_of_false (fun heq => ?_) fun hnot => hnot ⟨⟨hmode, hcr.isAbsent⟩, hfull'⟩
    -- The new inode was free before.
    have hnew := (hcr.quiet h (by decide : Kind.file ≠ .free) 0 0).2
    rw [heq] at hnew
    have htype := hcr.fresh.free
    rw [hnew] at htype
    cases htype

theorem sysOpen_failed [DecidableEq P] (h : k.Quiet) :
    wp (sysOpen fmt p cwd path omode)
      (fun r k' => r = -1 → (k' = k ↔ ¬ (MakesFile k.inode cwd path omode ∧ k.Full p)))
      (fun _ _ => True) k := by
  refine wp_mono (sysOpen_spec h omode) ?_ fun _ _ _ => trivial
  rintro r k' (⟨-, rfl, hthere⟩ | ⟨i, k₁, hopens, ⟨-, rfl, hfull⟩ | ⟨f, fd, rfl, -⟩⟩) hr
  · exact iff_of_true rfl fun hmakes => hthere hmakes.1
  · exact hopens.unchanged_iff h hfull
  · exact absurd hr (by omega)

end Open

theorem Done.unchanged {D : Kernel P → Prop} {r : ℤ} (h : Done k D r k') (hr : r = -1) :
    k' = k := by
  rcases h with ⟨-, hk⟩ | ⟨h0, -⟩
  · exact hk
  · cases h0.symm.trans hr

section Calls

variable [DecidableEq P] [Fintype P] {p : P} {pr : Proc} {c : Call P}

/-- The state after a call that has returned `-1`. -/
theorem failed_spec (h : Orderly fmt k) (hp : k.proc p = some pr) (hc : c.takesPath = true) :
    wp (c.run fmt devsw p pr.cwd)
      (fun r k' => r = -1 → (k' = k ↔ ¬ Stranded k p pr.cwd c)) (fun _ _ => True) k := by
  -- All calls but one change nothing, and are not stranded.
  have hdone : ∀ {D : Kernel P → Prop} {r : ℤ} {k' : Kernel P}, ¬ Stranded k p pr.cwd c →
      Done k D r k' → r = -1 → (k' = k ↔ ¬ Stranded k p pr.cwd c) :=
    fun hnot hd hr => iff_of_true (hd.unchanged hr) hnot
  have hquiet := h.quiet
  cases c with
  | sysOpen path omode => exact sysOpen_failed hquiet
  | sysLink old new =>
    exact wp_mono (sysLink_spec hquiet.settled hquiet.unlocked) (fun _ _ hk => hdone id hk.2)
      fun _ _ _ => trivial
  | sysUnlink path =>
    exact wp_mono (sysUnlink_spec hquiet.settled hquiet.unlocked h.proper)
      (fun _ _ hk => hdone id hk) fun _ _ _ => trivial
  | sysMkdir | sysMknod =>
    exact wp_mono (make_spec hquiet (by decide) (by decide) _ _) (fun _ _ hk => hdone id hk)
      fun _ _ _ => trivial
  | sysChdir path =>
    exact wp_mono (sysChdir_spec hquiet hp) (fun _ _ hk => hdone id hk) fun _ _ _ => trivial
  | _ => cases hc

/-- When `open`, `link`, `unlink`, `mkdir`, `mknod` or `chdir` returns `-1`, the kernel is as
it was before the call if and only if the call was not an `open` that makes a new file for
which there is no file structure or no descriptor. -/
theorem failed_call_unchanged_iff (h : Orderly fmt k) (hp : k.proc p = some pr)
    (hc : c.takesPath = true) (hrun : c.run fmt devsw p pr.cwd k = (.ok (-1), k')) :
    k' = k ↔ ¬ Stranded k p pr.cwd c :=
  wp_ok (failed_spec h hp hc) hrun rfl

end Calls

/-- The name `d` is taken, so the link count that `sys_link` has raised is taken back. -/
theorem failed_call_unchanged_iff_link :
    ∃ s k', run (step tinyFormat noDevices) ⟨boot, none⟩ makeFD = some s ∧
      (Call.sysLink pathF pathD).run tinyFormat noDevices () rootIno s.kernel = (.ok (-1), k') ∧
      k' = s.kernel := by
  obtain ⟨s, hs, hstopped, hproc, hr⟩ : ∃ s, run (step tinyFormat noDevices) ⟨boot, none⟩
      makeFD = some s ∧ s.stopped = none ∧ (s.kernel.proc ()).map Proc.cwd = some rootIno ∧
      ((Call.sysLink pathF pathD).run tinyFormat noDevices () rootIno s.kernel).1.toOption =
        some (-1) := by decide +kernel
  obtain ⟨pr, hpr, hcwd⟩ := Option.map_eq_some_iff.1 hproc
  obtain ⟨k', hk'⟩ := ok_of_toOption (-1) hr
  have hlive := live_of_run boot_orderly rfl (by decide +kernel) hs
  exact ⟨s, k', hs, hk', (failed_call_unchanged_iff (hlive.2 hstopped) hpr rfl (hcwd ▸ hk')).2 id⟩

def pathG : Path := [0x67]

/-- A process with sixteen open files opens a new one: the call fails, and the name is in the
directory. -/
theorem open_without_descriptor_creates :
    ∃ s k', run (step tinyFormat noDevices) ⟨boot, none⟩
        (List.replicate 16 ((), .sysOpen pathF (oCreate ||| oRdwr))) = some s ∧
      (Call.sysOpen pathG (oCreate ||| oRdwr)).run tinyFormat noDevices () rootIno s.kernel =
        (.ok (-1), k') ∧
      (s.kernel.inode rootIno).lookup pathG = none ∧
      (k'.inode rootIno).lookup pathG = some (3, 3) ∧ (k'.inode 3).type = .file ∧
      k' ≠ s.kernel := by
  obtain ⟨s, hs, hr, hbefore, hafter, htype⟩ : ∃ s, run (step tinyFormat noDevices) ⟨boot, none⟩
      (List.replicate 16 ((), .sysOpen pathF (oCreate ||| oRdwr))) = some s ∧
      let r := (Call.sysOpen pathG (oCreate ||| oRdwr)).run tinyFormat noDevices () rootIno s.kernel
      r.1.toOption = some (-1) ∧ (s.kernel.inode rootIno).lookup pathG = none ∧
        (r.2.inode rootIno).lookup pathG = some (3, 3) ∧ (r.2.inode 3).type = .file := by
    decide +kernel
  obtain ⟨k', hk'⟩ := ok_of_toOption (-1) hr
  rw [hk'] at hafter htype
  refine ⟨s, k', hs, hk', hbefore, hafter, htype, ?_⟩
  rintro rfl
  cases hbefore.symm.trans hafter

end Xv6.Tree
