import Xv6.Tree.Links

/-!
# Link counts are exact

A directory that has been removed while a process is in it keeps its inode until the
process leaves. Nothing in `create` and `sys_link` looks at the links of the parent
directory, so the process can still make entries in it, and what they name then has
links that no directory of the tree holds. Link counts are 16 bits wide and are not
compared with their largest value either.

In a run in which every new entry goes into a directory that has links, and no count is
at its largest value when it is raised, link counts are exact between any two calls and
every inode with links can be reached from the root.
-/

namespace Xv6.Tree

open Machine

variable {P : Type} {fmt : Format} {devsw : Devices} {tree tree' : ℕ → Inode} {cwd : ℕ}
  {c : Call P}

/-- The new entry of a call, if it makes one, goes into a directory that has links, and
the count that it raises has room. -/
def Grounded (tree : ℕ → Inode) (cwd : ℕ) (c : Call P) : Prop :=
  (∀ m ∈ c.makes, ∀ d ∈ resolveParent tree cwd m.1, (tree d.1).lookup d.2 = none →
    0 < (tree d.1).nlink.toInt ∧ (m.2 = .dir → (tree d.1).nlink.toInt < maxLink)) ∧
  ∀ l ∈ c.links, ∀ i ∈ resolve tree cwd l.1, ∀ d ∈ resolveParent tree cwd l.2,
    (tree i).type ≠ .dir → (tree d.1).lookup d.2 = none →
      0 < (tree d.1).nlink.toInt ∧ (tree i).nlink.toInt < maxLink

instance (tree : ℕ → Inode) (cwd : ℕ) (c : Call P) : Decidable (Grounded tree cwd c) :=
  inferInstanceAs (Decidable ((∀ m ∈ c.makes, ∀ d ∈ resolveParent tree cwd m.1, _) ∧
    ∀ l ∈ c.links, ∀ i ∈ resolve tree cwd l.1, ∀ d ∈ resolveParent tree cwd l.2, _))

theorem Call.makes_ne_free {path : Path} {type : Kind} (h : c.makes = some (path, type)) :
    type ≠ .free := by
  rintro rfl
  cases c <;> simp [Call.makes] at h

theorem Edit.sound (h : Sound fmt tree) (hp : Proper tree) (hw : Within fmt tree)
    (hg : Grounded tree cwd c) (he : Edit fmt tree cwd c tree') : Sound fmt tree' := by
  cases he with
  | same => exact h
  | @link old new i dp name hl =>
    obtain ⟨hlive, hmax⟩ := hg.2 (old, new) rfl i hl.found (dp, name) hl.parent hl.notDir hl.fresh
    exact h.link hw hl hlive hmax
  | unlink hu => exact h.unlink hp hu
  | @create _ path type dp i name hc hcr =>
    obtain ⟨hlive, hmax⟩ := hg.1 (path, type) hc (dp, name) hcr.parent hcr.absent
    exact h.create hw hcr (Call.makes_ne_free hc) hlive hmax

section Runs

variable [Fintype P] [DecidableEq P] {s t : Sys P} {es : List (P × Call P)}

def CallGrounded (s : Sys P) (e : P × Call P) : Prop :=
  ∀ pr ∈ s.kernel.proc e.1, Grounded s.kernel.inode pr.cwd e.2

instance (s : Sys P) (e : P × Call P) : Decidable (CallGrounded s e) :=
  inferInstanceAs (Decidable (∀ pr ∈ s.kernel.proc e.1, _))

def Exact (fmt : Format) (s : Sys P) : Prop :=
  s.stopped = none → Orderly fmt s.kernel ∧ Sound fmt s.kernel.inode

theorem step_exact {e : P × Call P} (h : Exact fmt s) (hg : CallGrounded s e)
    (hstep : step fmt devsw s e = some t) : Exact fmt t := by
  obtain ⟨hord, hsound⟩ := h (step_enabled hstep).1
  intro hrunning
  obtain ⟨pr, hp, ⟨-, hout⟩ | ⟨r, hr, -⟩⟩ := step_cases hord hstep
  · refine ⟨hout.orderly hord, ?_⟩
    obtain ⟨tree, hedit, htend, -⟩ := hout
    exact (hedit.sound hsound hord.proper hord.within (hg pr hp)).tended htend
  · simp [hr] at hrunning

theorem run_exact (h : Orderly fmt s.kernel) (hsound : Sound fmt s.kernel.inode)
    (hmeets : Meets (step fmt devsw) CallGrounded s es)
    (hrun : run (step fmt devsw) s es = some t) : Exact fmt t :=
  hmeets.invariant (I := Exact fmt) (fun _ => ⟨h, hsound⟩)
    (fun _ _ _ hI hG hstep => step_exact hI hG hstep) hrun

/-- From a well-formed tree, in every run whose calls are grounded, the link count of
every allocated inode is the number of entries for it, other than `.`, in directories
that have links, and an inode with links can be reached from the root. -/
theorem link_counts_exact (h : Orderly fmt s.kernel) (hsound : Sound fmt s.kernel.inode)
    (hmeets : Meets (step fmt devsw) CallGrounded s es) (hrun : run (step fmt devsw) s es = some t)
    (hrunning : t.stopped = none) (i : ℕ) (hi : (t.kernel.inode i).type ≠ .free) :
    (t.kernel.inode i).nlink.toInt = linkCount fmt t.kernel.inode i ∧
      (0 < (t.kernel.inode i).nlink.toInt → Leads t.kernel.inode rootIno i) := by
  have htree := (run_exact h hsound hmeets hrun hrunning).2
  exact ⟨htree.nlink_eq hi, htree.leads hi⟩

end Runs

theorem boot_root : boot.inode rootIno = emptyRoot := rfl

theorem boot_live {d : ℕ} (h : (hierarchy tinyFormat boot.inode).Live d) : d = rootIno := by
  have hd : (boot.inode d).type = .dir := h.1
  exact boot_alloc (by simp [hd])

theorem boot_holds (d i : ℕ) : (hierarchy tinyFormat boot.inode).holds d i = 0 := by
  simp only [hierarchy]
  split
  · rename_i hd
    obtain rfl := boot_alloc (i := d) (by simp [hd])
    rfl
  · rfl

theorem boot_sound : Sound tinyFormat boot.inode := by
  have hroot : (hierarchy tinyFormat boot.inode).Live rootIno := ⟨rfl, by decide⟩
  have hcount : (hierarchy tinyFormat boot.inode).count rootIno = 1 := by
    rw [Hierarchy.count, Finset.sum_eq_single_of_mem rootIno (by decide),
      Hierarchy.Well.naming_of_live hroot, boot_holds]
    · rfl
    · intro d _ hd
      exact Hierarchy.Well.naming_of_not_live (fun hl => hd (boot_live hl)) _
  refine ⟨rfl, ?_, ⟨?_, ?_, hroot, rfl, ?_, ?_, ?_, ?_, ?_, ?_⟩⟩
  · intro d hd
    obtain rfl := boot_alloc (i := d) (by simp [hd])
    exact ⟨by decide, ⟨_, _, rfl, rfl, rfl, by decide, rfl⟩,
      by simp [boot_root, emptyRoot, Inode.rest]⟩
  · intro i hi
    obtain rfl := boot_alloc hi
    decide
  · intro d hd
    have hd : (boot.inode d).type = .dir := hd
    simp [hierarchy, hd]
  · intro i hi
    obtain rfl := boot_alloc hi
    rw [hcount]
    rfl
  · intro d i _ hne
    exact absurd (boot_holds d i) hne
  · intro d hd hne
    exact absurd (boot_live hd) hne
  · intro d i _ _
    exact boot_holds d i
  · intro d i _ hne
    exact absurd (boot_holds d i) hne
  · intro d hd
    obtain rfl := boot_live hd
    exact .root

def pathRootD : Path := [slash, 0x64]

def leaveD : List (Unit × Call Unit) :=
  [((), .sysMkdir pathD), ((), .sysChdir pathD), ((), .sysUnlink pathRootD)]

theorem link_counts_exact_linkFile :
    ∃ t, run (step tinyFormat noDevices) ⟨boot, none⟩
        (makeFD ++ [((), .sysLink pathF pathDG)]) = some t ∧
      (t.kernel.inode 2).nlink.toInt = 2 ∧ linkCount tinyFormat t.kernel.inode 2 = 2 := by
  obtain ⟨t, ht, hs, htype, hn⟩ : ∃ t, run (step tinyFormat noDevices) ⟨boot, none⟩
      (makeFD ++ [((), .sysLink pathF pathDG)]) = some t ∧ t.stopped = none ∧
      (t.kernel.inode 2).type = .file ∧ (t.kernel.inode 2).nlink.toInt = 2 := by decide +kernel
  have hexact := link_counts_exact boot_orderly boot_sound (by decide +kernel) ht hs 2
    (by simp [htype])
  exact ⟨t, ht, hn, by exact_mod_cast hexact.1.symm.trans hn⟩

/-- A file made in the removed directory has a link count of one, and no directory with
links has an entry for it. -/
theorem create_in_removed_dir :
    Orderly tinyFormat boot ∧ Sound tinyFormat boot.inode ∧
      (run (step tinyFormat noDevices) ⟨boot, none⟩
        (leaveD ++ [((), .sysOpen pathF (oCreate ||| oRdwr))])).map (fun t =>
          (t.stopped, (t.kernel.inode 3).type, (t.kernel.inode 3).nlink.toInt,
            linkCount tinyFormat t.kernel.inode 3)) = some (none, .file, 1, 0) :=
  ⟨boot_orderly, boot_sound, by decide +kernel⟩

end Xv6.Tree
