import Xv6.Tree.Exact

/-!
# Directory entries name allocated inodes

The entry `..` of a directory does not keep the parent allocated once the directory has
been removed: `sys_unlink` has taken back the link that it stood for. A process in the
removed directory can then remove the parent as well and look up `..`, and finds an inode
without a type.

In a run in which no directory is removed that is the parent of a removed one still in
use, and in which link counts stay exact, the parent of every directory has links. Then
every entry names an allocated inode and `ilock` never panics for want of a type.
-/

namespace Xv6.Tree

open Machine

variable {P : Type} {fmt : Format} {devsw : Devices} {k : Kernel P} {tree tree' : ℕ → Inode}
  {i d dp off cwd : ℕ} {name : Name} {path : Path} {c : Call P}

def Parented (tree : ℕ → Inode) : Prop :=
  ∀ d, (tree d).type = .dir → LiveDir tree (tree d).dotdot

def Orphans (fmt : Format) (tree : ℕ → Inode) (i : ℕ) : Prop :=
  ∃ d ∈ Finset.range fmt.ninodes, (tree d).type = .dir ∧ ¬ LiveDir tree d ∧ (tree d).dotdot = i

instance (fmt : Format) (tree : ℕ → Inode) (i : ℕ) : Decidable (Orphans fmt tree i) :=
  inferInstanceAs (Decidable (∃ d ∈ Finset.range fmt.ninodes, _))

def Call.unlinks : Call P → Option Path
  | .sysUnlink path => some path
  | _ => none

/-- The call does not remove the parent of a directory that was removed before. -/
def Spares (fmt : Format) (tree : ℕ → Inode) (cwd : ℕ) (c : Call P) : Prop :=
  ∀ path ∈ c.unlinks, ∀ d ∈ resolveParent tree cwd path, ∀ e ∈ (tree d.1).lookup d.2,
    (tree e.1).type = .dir → ¬ Orphans fmt tree e.1

instance (fmt : Format) (tree : ℕ → Inode) (cwd : ℕ) (c : Call P) :
    Decidable (Spares fmt tree cwd c) :=
  inferInstanceAs (Decidable (∀ path ∈ c.unlinks, ∀ d ∈ resolveParent tree cwd path,
    ∀ e ∈ (tree d.1).lookup d.2, _))

section Keep

theorem Parented.mono (h : Parented tree)
    (hdir : ∀ d, (tree' d).type = .dir → (tree d).type = .dir ∧ (tree' d).dotdot = (tree d).dotdot)
    (hlive : ∀ d, LiveDir tree d → LiveDir tree' d) : Parented tree' := by
  intro d hd
  obtain ⟨hold, hdots⟩ := hdir d hd
  rw [hdots]
  exact hlive _ (h d hold)

theorem Parented.tended (h : Parented tree) (ht : Tended tree tree') : Parented tree' := by
  refine h.mono (fun d hd => ?_) fun d hd => ?_
  · rcases (ht d).2 with ⟨htype, hent⟩ | ⟨-, hfree, -⟩
    · exact ⟨htype ▸ hd, by rw [Inode.dotdot, Inode.dotdot, hent]⟩
    · cases hfree.symm.trans hd
  · obtain ⟨hn, ⟨htype, -⟩ | ⟨hz, -⟩⟩ := ht d
    · exact ⟨htype.trans hd.1, hn.symm ▸ hd.2⟩
    · have hpos := hd.2
      simp [hz] at hpos

variable {old new : Path}

variable (h : Parented tree) (hs : Sound fmt tree)
include h hs

theorem Parented.link (hl : Links tree cwd old new i dp name) :
    Parented (linkTree tree i dp name) := by
  have hne := hl.ne
  refine h.mono (forall_inode dp i (fun _ => ?_) (fun hd => ?_) fun j hjd hji hd => ?_)
    (forall_inode dp i (fun hd => ?_) (fun hd => absurd hd.1 hl.notDir) fun j hjd hji hd => ?_)
  · rw [linkTree_dir hne]
    exact ⟨hl.dir, (hs.dotted dp hl.dir).dotdot_enter _⟩
  · rw [linkTree_inode hne] at hd
    exact absurd hd hl.notDir
  · rw [linkTree_of_ne hjd hji] at hd ⊢
    exact ⟨hd, rfl⟩
  · rw [LiveDir, linkTree_dir hne]
    exact hd
  · rw [LiveDir, linkTree_of_ne hjd hji]
    exact hd

theorem Parented.unlink (hp : Proper tree) (hw : Within fmt tree)
    (hu : Unlinks tree cwd path dp i off) (hspare : (tree i).type = .dir → ¬ Orphans fmt tree i) :
    Parented (unlinkTree tree dp i off) := by
  have hne := hu.ne hp
  obtain ⟨-, -, -, -, hoff⟩ := hu.entry hs
  obtain ⟨hlive, hholds⟩ := hu.live hs
  have hdir : ∀ d, (unlinkTree tree dp i off d).type = .dir →
      (tree d).type = .dir ∧ (unlinkTree tree dp i off d).dotdot = (tree d).dotdot := by
    refine forall_inode dp i (fun _ => ?_) (fun hd => ?_) fun j hjd hji hd => ?_
    · rw [unlinkTree_dir hne]
      exact ⟨hu.dir, (hs.dotted dp hu.dir).dotdot_remove hoff _⟩
    · rw [unlinkTree_inode hne] at hd ⊢
      exact ⟨hd, rfl⟩
    · rw [unlinkTree_of_ne hjd hji] at hd ⊢
      exact ⟨hd, rfl⟩
  by_cases hi : (tree i).type = .dir
  · -- Only `i` loses its last link, and it is the parent of no directory.
    obtain ⟨hroot, hilive, hpar⟩ := hs.well.down dp i hlive hholds hi
    have hempty : ∀ j, (hierarchy fmt tree).holds i j = 0 := by
      intro j
      simp only [hierarchy, hi, if_true]
      exact holds_of_isdirempty (hu.empty hi) j
    have hparent : ∀ d, (tree d).type = .dir → (tree d).dotdot ≠ i := by
      intro d hd hdi
      by_cases hdl : LiveDir tree d
      · have hpd : (hierarchy fmt tree).parent d = i := by simp [hierarchy, hd, hdi]
        by_cases hdr : d = rootIno
        · subst hdr
          exact hroot (hpd.symm.trans hs.well.root_parent)
        · have hone := (hs.well.up d hdl hdr).2
          simp [hpd, hempty] at hone
      · exact hspare hi ⟨d, Finset.mem_range.2 (hw d (by simp [hd])), hd, hdl, hdi⟩
    intro d hd
    obtain ⟨hold, hdots⟩ := hdir d hd
    have hlive' : (hierarchy fmt (unlinkTree tree dp i off)).Live (tree d).dotdot := by
      rw [hierarchy_unlink_dir hs hp hu hi]
      exact (Hierarchy.Well.live_removeDir hs.well hlive hilive hpar hroot hne.symm hempty).2
        ⟨h d hold, hparent d hold⟩
    rw [hdots]
    exact hlive'
  · refine h.mono hdir fun d hd => ?_
    have hlive' : (hierarchy fmt (unlinkTree tree dp i off)).Live d := by
      rw [hierarchy_unlink hs hp hu hi]
      exact (Hierarchy.Well.live_leave hi _).2 hd
    exact hlive'

theorem Parented.create {type : Kind} {major minor : BitVec 16} (hw : Within fmt tree)
    (hc : Creates fmt tree cwd path dp name i) (hfree : type ≠ .free)
    (hlive : 0 < (tree dp).nlink.toInt) (hmax : type = .dir → (tree dp).nlink.toInt < maxLink) :
    Parented (createTree tree dp name i (Inode.new type major minor i dp)) := by
  have hne := hc.ne
  have hkeep : ∀ d, LiveDir tree d →
      LiveDir (createTree tree dp name i (Inode.new type major minor i dp)) d := by
    intro d hd
    have hunused : ¬ (hierarchy fmt tree).used i := fun hu => hu hc.fresh.free
    have hlive' : (hierarchy fmt
        (createTree tree dp name i (Inode.new type major minor i dp))).Live d := by
      by_cases hdir : type = .dir
      · subst hdir
        rw [hierarchy_create_dir hs hw hc (hmax rfl)]
        exact (Hierarchy.Well.live_makeDir hs.well ⟨hc.dir, hlive⟩ hunused).2 (.inl hd)
      · rw [hierarchy_create hs hc hfree hdir]
        exact (Hierarchy.Well.live_make hs.well hunused _).2 hd
    exact hlive'
  refine forall_inode dp i (fun _ => ?_) (fun hd => ?_) fun j hjd hji hd => ?_
  · have hdots : (createTree tree dp name i (Inode.new type major minor i dp) dp).dotdot =
        (tree dp).dotdot := by
      rw [createTree_dir hne]
      exact (hs.dotted dp hc.dir).dotdot_enter _
    rw [hdots]
    exact hkeep _ (h dp hc.dir)
  · rw [createTree_inode hne] at hd
    obtain rfl : type = .dir := hd
    have hdots : (createTree tree dp name i (Inode.new .dir major minor i dp) i).dotdot = dp := by
      rw [createTree_inode hne]
      exact hw.inum_to (by simp [hc.dir]) dotDot
    rw [hdots]
    exact hkeep dp ⟨hc.dir, hlive⟩
  · rw [createTree_of_ne hjd hji] at hd ⊢
    exact hkeep _ (h j hd)

theorem Edit.parented (hp : Proper tree) (hw : Within fmt tree) (hg : Grounded tree cwd c)
    (hspare : Spares fmt tree cwd c) (he : Edit fmt tree cwd c tree') : Parented tree' := by
  cases he with
  | same => exact h
  | link hl => exact h.link hs hl
  | @unlink path dp i off hu =>
    obtain ⟨name, hres, -, -, hfound⟩ := hu.found
    exact h.unlink hs hp hw hu (hspare path rfl (dp, name) hres (i, off) hfound)
  | @create _ path type dp i name hc hcr =>
    obtain ⟨hlive, hmax⟩ := hg.1 (path, type) hc (dp, name) hcr.parent hcr.absent
    exact h.create hs hw hcr (Call.makes_ne_free hc) hlive hmax

end Keep

/-- Every entry names an allocated inode. -/
theorem Sound.alloc_of_entry (hs : Sound fmt tree) (h : Parented tree) (he : Entry tree d i) :
    (tree i).type ≠ .free := by
  obtain ⟨hd, e, hmem, hinum, hi⟩ := he
  obtain ⟨e₀, e₁, hes, hself, -, hup, -⟩ := (hs.dotted d hd).dots
  have hdots : (tree d).dotdot = e₁.inum := by
    rw [Inode.dotdot, hes]
    rfl
  rw [hes] at hmem
  rcases List.mem_cons.1 hmem with rfl | hmem
  · simp [← hinum, hself, hd]
  · rcases List.mem_cons.1 hmem with rfl | hmem
    · have hlive := h d hd
      rw [hdots, hinum] at hlive
      simp [hlive.1]
    · -- Only a directory with links holds anything after its first two entries.
      have hholds : (hierarchy fmt tree).holds d i ≠ 0 := by
        simp only [hierarchy, hd, if_true]
        exact (List.countP_pos_iff.2 ⟨e, hmem, by simp [hinum, hi]⟩).ne'
      have hlive : (hierarchy fmt tree).Live d := by
        by_contra hdead
        exact hholds (hs.well.empty d i hd hdead)
      exact hs.well.held d i hlive hholds

theorem Sound.alloc_of_leads (hs : Sound fmt tree) (h : Parented tree)
    (hd : (tree d).type ≠ .free) (hl : Leads tree d i) : (tree i).type ≠ .free := by
  induction hl with
  | refl => exact hd
  | tail _ he => exact hs.alloc_of_entry h he

section Runs

variable [Fintype P] [DecidableEq P] {s t : Sys P} {es : List (P × Call P)}

/-- The root, a current directory, or the inode of an open file. -/
def Referenced (k : Kernel P) (r : ℕ) : Prop :=
  r = rootIno ∨ (∃ p pr, k.proc p = some pr ∧ pr.cwd = r) ∨ ∃ f, (k.file f).On r

/-- The next call is grounded and does not remove the parent of a removed directory. -/
def CallSpares (fmt : Format) (s : Sys P) (e : P × Call P) : Prop :=
  CallGrounded s e ∧ ∀ pr ∈ s.kernel.proc e.1, Spares fmt s.kernel.inode pr.cwd e.2

instance (fmt : Format) (s : Sys P) (e : P × Call P) : Decidable (CallSpares fmt s e) :=
  inferInstanceAs (Decidable (CallGrounded s e ∧ ∀ pr ∈ s.kernel.proc e.1, _))

/-- A well-formed file system. -/
structure Intact (fmt : Format) (k : Kernel P) : Prop where
  orderly : Orderly fmt k
  sound : Sound fmt k.inode
  parented : Parented k.inode

omit [DecidableEq P] in
theorem Intact.alloc_of_referenced (h : Intact fmt k) {r : ℕ} (hr : Referenced k r) :
    (k.inode r).type ≠ .free := by
  rcases hr with rfl | ⟨p, pr, hp, rfl⟩ | ⟨f, hf⟩
  · exact h.sound.well.used_of_dir _ h.sound.well.root_live.1
  · obtain ⟨e, he⟩ := h.orderly.quiet.cwd_cached hp
    exact h.orderly.quiet.settled.alloc _ e he
  · obtain ⟨e, he⟩ := h.orderly.quiet.file_cached hf
    exact h.orderly.quiet.settled.alloc _ e he

omit [DecidableEq P] in
theorem Intact.alloc_of_leads (h : Intact fmt k) {r : ℕ} (hr : Referenced k r)
    (hl : Leads k.inode r i) : (k.inode i).type ≠ .free :=
  h.sound.alloc_of_leads h.parented (h.alloc_of_referenced hr) hl

def Whole (fmt : Format) (s : Sys P) : Prop :=
  s.stopped ≠ some .noType ∧ (s.stopped = none → Intact fmt s.kernel)

theorem step_whole {e : P × Call P} (h : Whole fmt s) (hg : CallSpares fmt s e)
    (hstep : step fmt devsw s e = some t) : Whole fmt t := by
  obtain ⟨p, c⟩ := e
  have hi := h.2 (step_enabled hstep).1
  obtain ⟨pr, hp, ⟨hnone, hout⟩ | ⟨r, hr, hstops⟩⟩ := step_cases hi.orderly hstep
  · refine ⟨by simp [hnone], fun _ => ?_⟩
    have hord := hout.orderly hi.orderly
    obtain ⟨tree, hedit, htend, -⟩ := hout
    have hsound := hedit.sound hi.sound hi.orderly.proper hi.orderly.within (hg.1 pr hp)
    have hpar := hedit.parented hi.parented hi.sound hi.orderly.proper hi.orderly.within
      (hg.1 pr hp) (hg.2 pr hp)
    exact ⟨hord, hsound.tended htend, hpar.tended htend⟩
  · refine ⟨?_, fun hn => by simp [hr] at hn⟩
    rw [hr]
    intro hno
    cases hno
    rcases hstops with (hharm | ⟨-, root, j, hroot, hlead, hfree⟩) | ⟨hself, -⟩
    · exact hharm.2.1 rfl
    · have href : Referenced s.kernel root :=
        hroot.imp_right fun hcwd => .inl ⟨p, pr, hp, hcwd.symm⟩
      exact hi.alloc_of_leads href hlead hfree
    · cases hself

/-- From a well-formed file system, in every run whose calls meet the condition, what can
be reached from the root, a current directory or an open file is allocated, and no call
panics in `ilock` for want of a type. -/
theorem entries_never_dangle (h : Intact fmt s.kernel) (hs : s.stopped = none)
    (hmeets : Meets (step fmt devsw) (CallSpares fmt) s es)
    (hrun : run (step fmt devsw) s es = some t) :
    t.stopped ≠ some .noType ∧
      (t.stopped = none → ∀ r i, Referenced t.kernel r → Leads t.kernel.inode r i →
        (t.kernel.inode i).type ≠ .free) := by
  have hwhole : Whole fmt t :=
    hmeets.invariant (I := Whole fmt) ⟨by simp [hs], fun _ => h⟩
      (fun _ _ _ hI hG hstep => step_whole hI hG hstep) hrun
  exact ⟨hwhole.1, fun hn r i hr hl => (hwhole.2 hn).alloc_of_leads hr hl⟩

end Runs

theorem boot_intact : Intact tinyFormat boot := by
  refine ⟨boot_orderly, boot_sound, fun d hd => ?_⟩
  obtain rfl := boot_alloc (i := d) (by simp [hd])
  decide

def pathRootDG : Path := [slash, 0x64, slash, 0x67]

def pathUp : Path := [dot, dot]

def leaveDG : List (Unit × Call Unit) :=
  [((), .sysMkdir pathD), ((), .sysMkdir pathDG), ((), .sysChdir pathDG),
    ((), .sysUnlink pathRootDG)]

theorem entries_never_dangle_openUp :
    ∃ t, run (step tinyFormat noDevices) ⟨boot, none⟩
        (leaveDG ++ [((), .sysOpen pathUp 0)]) = some t ∧ t.stopped = none ∧
      ∀ i, Leads t.kernel.inode rootIno i → (t.kernel.inode i).type ≠ .free := by
  obtain ⟨t, ht, hs⟩ : ∃ t, run (step tinyFormat noDevices) ⟨boot, none⟩
      (leaveDG ++ [((), .sysOpen pathUp 0)]) = some t ∧ t.stopped = none := by decide +kernel
  have hend := entries_never_dangle boot_intact rfl (by decide +kernel) ht
  exact ⟨t, ht, hs, fun i => hend.2 hs rootIno i (.inl rfl)⟩

/-- When the parent is removed too, `..` names a free inode and looking it up panics. -/
theorem open_removed_parent_panics :
    Intact tinyFormat boot ∧ (run (step tinyFormat noDevices) ⟨boot, none⟩
        (leaveDG ++ [((), .sysUnlink pathRootD)])).map (fun t =>
          (t.stopped, ((t.kernel.proc ()).map fun pr => ((t.kernel.inode pr.cwd).type,
            (t.kernel.inode (t.kernel.inode pr.cwd).dotdot).type)))) =
        some (none, some (.dir, .free)) ∧
      (run (step tinyFormat noDevices) ⟨boot, none⟩
        (leaveDG ++ [((), .sysUnlink pathRootD), ((), .sysOpen pathUp 0)])).map Sys.stopped =
        some (some .noType) :=
  ⟨boot_intact, by decide +kernel, by decide +kernel⟩

end Xv6.Tree
